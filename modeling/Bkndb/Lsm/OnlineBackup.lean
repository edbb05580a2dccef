import Bkndb.Lsm.Backup
import Bkndb.Lsm.Session
import Bkndb.Lsm.SnapshotRun

/-!
# A backup beside the writer

A backup checks its target, takes a snapshot, writes what the snapshot holds under a temporary name,
and gives the file its name. Between any two of these the writer commits, flushes and merges, and
readers take snapshots of their own. When the backup returns `Ok`, the copy opens as a database of
exactly what was committed at the snapshot, with an empty log, and from then on it is a database
like any other.

## What is in the copy

The copy holds what the snapshot reads, and `SnapshotRun` tells when this is what was committed: as
long as no flush fails with its memtable set aside. Nothing else that fails in the engine reaches
the copy, and a call that fails in the backup makes it return an error.

## The files

The writer and the backup change different files. `Separate` says that no name outside leads to a
file of the engine; it is all that is asked of the files here, since a copy does not depend on what
the engine's file contains.

## Main results

* `copied_of_unobstructed`: in every run, a copy that was made is exactly what was committed.
* `not_copied`: after a flush that failed, a copy holds a value that was overwritten.
-/

open Container Layers

namespace Lsm

variable [Lz4] [BloomSizing]

/-! ## A copy

A finished copy is a fresh container, and what it holds is known exactly: one table, and nothing in
the log. -/

/-- The name leads to a container that was written in one go, for this map. -/
def Finished (os : Os) (name : String) (D : OrdMap Bytes Bytes) : Prop :=
  ∃ fresh v, os.names name = some fresh.file ∧ FreshImage os fresh v D

/-- What holds of every run of a database that was just made holds of every run from here. -/
structure Behaves (s : LsmSystem) (D : OrdMap Bytes Bytes) : Prop where
  /-- While no call fails and no table is refused, every transaction answers from the contents that
  it is to see. -/
  refines : ∀ M, Contents.Represents D M → ∀ steps,
    Run.EachStep Session.step Session.Undamaged ⟨s, .idle, M, [], none⟩ steps →
    Run.EachStep Session.step Session.Unrefused ⟨s, .idle, M, [], none⟩ steps →
    ∀ r', Run.run Session.step ⟨s, .idle, M, [], none⟩ steps = some r' → r'.Refines
  /-- Whatever call fails, snapshots read what was committed, unless a flush has failed. -/
  isolated : ∀ steps,
    Run.EachStep SnapshotRun.step SnapshotRun.Unobstructed ⟨s, .idle, D, []⟩ steps →
    ∀ r', Run.run SnapshotRun.step ⟨s, .idle, D, []⟩ steps = some r' → r'.Isolated
  /-- And what was committed survives when the process is killed. -/
  survives : ∀ steps, Run.EachStep SurvivalRun.step SurvivalRun.Harmless ⟨s, .idle, D⟩ steps →
    ∀ r', Run.run SurvivalRun.step ⟨s, .idle, D⟩ steps = some r' → r'.Survives

/-- The engine has exactly this map, all of it in tables, and is as good as new. -/
structure HoldsExactly (s : LsmSystem) (D : OrdMap Bytes Bytes) : Prop where
  reads : (beginRead s.backend).Reads D
  active : s.backend.state.activeMemtable = ∅
  immutables : s.backend.state.immutableMemtables = []
  /-- The log is empty. -/
  log : (s.os.contents s.backend.container.file).length = s.backend.state.walRegionStart
  generations : ∀ t ∈ s.backend.state.sstables, t.generation < s.backend.state.nextSstableId
  behaves : Behaves s D

omit [Lz4] [BloomSizing] in
/-- Where no frame is, no bytes are. -/
theorem eq_nil_of_replay {body : Bytes} (h : Wal.replay body = ([], body.length)) : body = [] := by
  cases hframe : Wal.parseFrame body with
  | none =>
    rw [Wal.replay_eq_of_none hframe] at h
    exact List.length_eq_zero_iff.mp (Prod.mk.inj h).2.symm
  | some x =>
    obtain ⟨r, n⟩ := x
    rw [Wal.replay_eq_of_some hframe] at h
    cases (Prod.mk.inj h).1

theorem AtRest.behaves {s : LsmSystem} {D : OrdMap Bytes Bytes} (hq : s.os.Quiet)
    (h : AtRest true s D) : Behaves s D where
  refines M hM steps hok hun r' hrun := by
    have hinv : Session.Inv ⟨s, .idle, M, [], none⟩ :=
      ⟨hq, fun x hx ↦ absurd hx List.not_mem_nil, D, h, fun hne ↦ absurd rfl hne, fun _ ↦ hM,
        fun _ x hx ↦ by cases hx⟩
    have hstep : ∀ r a r', Session.Inv r → r.Undamaged a ∧ r.Unrefused a → r.step a = some r' →
        r'.Inv := fun r a r' hr hc ↦ hr.step hc.1 hc.2
    exact (Run.invariant hstep hinv (hok.and hun) hrun).refines
  isolated steps hclear r' hrun := by
    have himm : s.backend.state.immutableMemtables = [] := by
      cases h with
      | intact v h hsettled => exact (hsettled rfl).immutables
      | detached htidy h => cases htidy
    have hopened : SnapshotRun.Opened ⟨s, .idle, D, []⟩ := ⟨rfl, himm, h.live, rfl⟩
    exact (Run.invariant (fun _ _ _ ↦ SnapshotRun.Inv.step) hopened.inv hclear hrun).isolated
  survives steps hharmless r' hrun := by
    have hinv : SurvivalRun.Inv ⟨s, .idle, D⟩ := SurvivalRun.AtRest.untidy h
    exact (Run.invariant (fun _ _ _ ↦ SurvivalRun.Inv.step) hinv hharmless hrun).survives

omit [BloomSizing] in
theorem FreshImage.congr {os os' : Os} {fresh : FreshContainer} {v : Image}
    {D : OrdMap Bytes Bytes} (h : FreshImage os fresh v D)
    (hinode : os'.inodes fresh.file = os.inodes fresh.file) : FreshImage os' fresh v D :=
  { h with
    contents := by
      rw [Os.contents, hinode]
      exact h.contents
    durable := by
      rw [Os.contents, hinode]
      exact h.durable }

omit [BloomSizing] in
theorem Finished.congr {os os' : Os} {name name' : String} {D : OrdMap Bytes Bytes}
    (h : Finished os name D) (hname : os'.names name' = os.names name)
    (hinode : ∀ j, os.names name = some j → os'.inodes j = os.inodes j) : Finished os' name' D := by
  obtain ⟨fresh, v, hfile, himage⟩ := h
  exact ⟨fresh, v, hname.trans hfile, himage.congr (hinode _ hfile)⟩

/-- **A finished copy opens** as a database of exactly its map. -/
theorem Finished.opens {os : Os} {name : String} {D : OrdMap Bytes Bytes} (h : Finished os name D)
    (hlt : ∀ j, os.names name = some j → j < os.next) (options : LsmOptions) :
    ∃ b os', openWithOptions name options (os.withPlan []) = (.ok b, os') ∧
      HoldsExactly ⟨os', b⟩ D := by
  obtain ⟨fresh, v, hfile, himage⟩ := h
  obtain ⟨b, os', hopen, hopened, -⟩ := @openWithOptions_image _ name options v D himage.denotes
    (os.withPlan []) fresh.file rfl hfile (hlt _ hfile) himage.contents
  have himm := hopened.settled.immutables
  have hbooks := hopened.intact.memory.books himm
  have hrest : AtRest true ⟨os', b⟩ D := .intact _ hopened.intact fun _ ↦ hopened.settled
  refine ⟨b, os', hopen, ReadTx.reads hrest.live, ?_, himm, ?_, fun t ht ↦ ?_,
    hrest.behaves hopened.quiet⟩
  · rw [hopened.intact.memory.active himm]
    change Lsm.replayed v.records = ∅
    rw [himage.records]
    rfl
  · have hbody : v.body = [] := eq_nil_of_replay (himage.records ▸ v.log)
    rw [hopened.intact.disk.contents, v.file_cut, hbody, List.append_nil, hbooks.start]
    exact v.start.symm
  · have hmem : sstableRef t ∈ v.cut.manifest.sstables := hbooks.refs ▸ List.mem_map_of_mem ht
    exact (v.cut.ids _ hmem).trans_le hbooks.next

/-- What the merge of a snapshot gives is what is written. -/
theorem finished_of_writeCopy {snap : ReadSnapshot} {opts : Sst.WriteOptions} {dest : String}
    {E : OrdMap Bytes Bytes} {os os' : Os}
    (hmerged : MergeIter.merged (scanSources snap none .unbounded .unbounded) = E.entries.map .ok)
    (hrun : writeCopy snap opts dest os = (.ok (), os')) : Finished os' (backupTmpPath dest) E := by
  rw [writeCopy, hmerged] at hrun
  obtain ⟨fresh, os₁, hfresh, hrun⟩ := Effect.bind_eq_ok.mp hrun
  cases hrun
  obtain ⟨v, himage, -, -, hname, -⟩ := writeFreshContainer_image hfresh
  exact ⟨fresh, v, hname, himage⟩

theorem beside_writeCopy (snap : ReadSnapshot) (opts : Sst.WriteOptions) (dest : String) (os : Os) :
    os.Beside (backupTmpPath dest) (writeCopy snap opts dest os).2 := by
  have hbeside := beside_writeFreshContainer (backupTmpPath dest) 1
    (MergeIter.merged (scanSources snap none .unbounded .unbounded)) (expectedEntries snap) opts os
  rw [writeCopy]
  rcases hfresh : writeFreshContainer (backupTmpPath dest) 1
    (MergeIter.merged (scanSources snap none .unbounded .unbounded)) (expectedEntries snap) opts os
    with ⟨e | fresh, os'⟩
  · rw [hfresh] at hbeside
    rw [Effect.bind_apply_of_error hfresh]
    exact hbeside
  · rw [hfresh] at hbeside
    rw [Effect.bind_apply_of_ok hfresh]
    exact hbeside

omit [BloomSizing] in
/-- The file takes over its name. -/
theorem Finished.rename {os os' : Os} {dest : String} {D : OrdMap Bytes Bytes}
    (h : Finished os (backupTmpPath dest) D)
    (hrun : Os.rename ioErr (backupTmpPath dest) dest os = (.ok (), os')) :
    Finished os' dest D := by
  rw [Os.rename] at hrun
  cases hanswer : os.answer with
  | fail n =>
    rw [hanswer] at hrun
    cases hrun
  | done =>
    rw [hanswer] at hrun
    cases hrun
    refine h.congr ?_ fun _ _ ↦ rfl
    change Function.update (Function.update os.names _ _) _ none dest = _
    rw [Function.update_of_ne (backupTmpPath_ne dest).symm, Function.update_self]

/-! ## The files of the engine

A backup needs less of the engine than a kill does: only that it keeps to its own files. So the
condition here is about names and files alone, and it holds also where the engine's file is beyond
repair. -/

/-- No name outside leads to a file of the engine, and the engine's own files are made. -/
structure Separate (s : LsmSystem) : Prop where
  foreign : ∀ name j, ¬Own s.backend.path name → s.os.names name = some j →
    ¬Os.Owned (Own s.backend.path) s.backend.container.file s.os j
  bounded : Os.Bounded (Own s.backend.path) s.backend.container.file s.os

section

variable {s s' : LsmSystem}

omit [Lz4] [BloomSizing] in
theorem Separate.lt_next (h : Separate s) {name : String} {j : ℕ} (hown : ¬Own s.backend.path name)
    (hname : s.os.names name = some j) : j < s.os.next :=
  not_le.mp fun hle ↦ h.foreign name j hown hname (.inr (.inl hle))

omit [Lz4] [BloomSizing] in
theorem Separate.keeps (h : Separate s) (hk : Keeps s s') : Separate s' := by
  obtain ⟨hpath, hwithin⟩ := hk
  refine ⟨fun name j hown hname howned ↦ ?_, ?_⟩
  · rw [hpath] at hown howned
    rw [hwithin.names name hown] at hname
    exact h.foreign name j hown hname (hwithin.owned j howned)
  · rw [hpath]
    exact hwithin.bounded h.bounded

omit [Lz4] [BloomSizing] in
/-- Files outside are renamed, and new ones are made. -/
theorem Separate.outside (h : Separate s) {os' : Os}
    (hown : ∀ name, Own s.backend.path name → os'.names name = s.os.names name)
    (hnext : s.os.next ≤ os'.next)
    (hfrom : ∀ name j, ¬Own s.backend.path name → os'.names name = some j →
      (∃ other, ¬Own s.backend.path other ∧ s.os.names other = some j) ∨
        s.os.next ≤ j ∧ j < os'.next) : Separate { s with os := os' } := by
  refine ⟨fun name j hn hj howned ↦ ?_, h.bounded.1.trans_le hnext, fun name j hn hj ↦ ?_⟩
  · rcases hfrom name j hn hj with ⟨other, hother, hfile⟩ | ⟨hle, hlt⟩
    · refine h.foreign other j hother hfile ?_
      rcases howned with heq | hle | ⟨mine, hmine, hj'⟩
      · exact .inl heq
      · exact .inr (.inl (hnext.trans hle))
      · exact .inr (.inr ⟨mine, hmine, (hown mine hmine).symm.trans hj'⟩)
    · -- a new file is behind all files that the engine has
      rcases howned with heq | hle' | ⟨mine, hmine, hj'⟩
      · exact absurd (heq ▸ h.bounded.1) (not_lt.mpr hle)
      · exact absurd hlt (not_lt.mpr hle')
      · exact absurd (h.bounded.2 mine j hmine ((hown mine hmine).symm.trans hj')) (not_lt.mpr hle)
  · exact (h.bounded.2 name j hn ((hown name hn).symm.trans hj)).trans_le hnext

omit [Lz4] [BloomSizing] in
theorem Separate.beside (h : Separate s) {name : String} {os' : Os}
    (hown : ¬Own s.backend.path name) (hb : s.os.Beside name os') :
    Separate { s with os := os' } := by
  refine h.outside (fun other hother ↦ ?_) hb.next fun other j hother hj ↦ ?_
  · exact hb.names other fun heq ↦ hown (heq ▸ hother)
  · by_cases heq : other = name
    · rw [heq] at hj
      exact (hb.named j hj).imp_left fun hold ↦ ⟨name, hown, hold⟩
    · exact .inl ⟨other, hother, (hb.names other heq).symm.trans hj⟩

omit [Lz4] [BloomSizing] in
theorem Separate.rename (h : Separate s) {src dst : String} (hsrc : ¬Own s.backend.path src)
    (hdst : ¬Own s.backend.path dst) :
    Separate { s with os := (Os.rename ioErr src dst s.os).2 } := by
  rw [Os.rename]
  cases s.os.answer with
  | fail n => exact ⟨h.foreign, h.bounded⟩
  | done =>
    refine h.outside (fun name hown ↦ ?_) le_rfl fun name j hown hj ↦ .inl ?_
    · change Function.update (Function.update s.os.names _ _) _ none name = _
      rw [Function.update_of_ne fun heq ↦ hsrc (by rwa [← heq]),
        Function.update_of_ne fun heq ↦ hdst (by rwa [← heq])]
    · change Function.update (Function.update s.os.names _ _) _ none name = some j at hj
      rw [Function.update_apply, Function.update_apply] at hj
      split_ifs at hj
      · exact ⟨src, hsrc, hj⟩
      · exact ⟨name, hown, hj⟩

omit [BloomSizing] in
/-- What the engine does leaves a copy as it is. -/
theorem Separate.finished (h : Separate s) (hk : Keeps s s') {name : String}
    {D : OrdMap Bytes Bytes} (hown : ¬Own s.backend.path name) (hcopy : Finished s.os name D) :
    Finished s'.os name D :=
  hcopy.congr (hk.within.names name hown) fun j hj ↦
    hk.within.inodes j (h.foreign name j hown hj)

theorem names_of_writeMerged {path : String} {opts : Sst.WriteOptions} {generation : ℕ}
    {sstables : List SstableHandle} {tables : List Memtable} {os os' : Os} {fresh : FreshContainer}
    (h : List.Forall₂ (fun h t ↦ SstableHandle.Holds h (OrdMap.entries t)) sstables tables)
    (hwrite : writeMerged path opts sstables generation os = (.ok fresh, os')) :
    os'.names path = some fresh.file := by
  obtain ⟨E, hmerged, -⟩ := merged_cursors h
  rw [writeMerged, hmerged] at hwrite
  obtain ⟨fresh', os₁, hfresh, hwrite⟩ := Effect.bind_eq_ok.mp hwrite
  obtain ⟨_, os₂, hcall, hwrite⟩ := Effect.bind_eq_ok.mp hwrite
  obtain ⟨_, os₃, hrename, hwrite⟩ := Effect.bind_eq_ok.mp hwrite
  cases hwrite
  obtain ⟨v, -, -, -, hname, -⟩ := writeFreshContainer_image hfresh
  have hnames : os₂.names = os₁.names := by
    have htouches := Os.steps_call (BknError.databaseLocked path) fresh.file os₁
    rw [hcall] at htouches
    exact htouches.names
  rw [Os.rename] at hrename
  cases hanswer : os₂.answer with
  | fail n =>
    rw [hanswer] at hrename
    cases hrename
  | done =>
    rw [hanswer] at hrename
    cases hrename
    change Function.update (Function.update os₂.names _ _) _ none path = _
    rw [Function.update_of_ne (compactionTmpPath_ne path).symm, Function.update_self, hnames, hname]

end

end Lsm

open Lsm

namespace SnapshotRun

variable [Lz4] [BloomSizing] {r r' : SnapshotRun}

theorem keeps {a : SnapshotStep} (h : NamesFresh r.sys r.pc) (hs : r.step a = some r') :
    Keeps r.sys r'.sys := by
  have hplanned : ∀ plan, Keeps r.sys (r.planned plan) := fun _ ↦
    ⟨rfl, fun _ _ ↦ rfl, fun _ _ ↦ rfl, fun _ ↦ id, le_rfl, id⟩
  cases a with
  | commit pending plan =>
    have happend : Keeps (r.planned plan) (appendRecord pending (r.planned plan)).2 :=
      ⟨rfl, .of_touches (appendRecord_touches pending (r.planned plan)).2 (.inl rfl)⟩
    have hkeeps := (hplanned plan).trans happend
    rw [SnapshotRun.step] at hs
    split at hs
    next =>
      split at hs
      next =>
        obtain rfl := Option.some.inj hs
        exact .rfl' _
      next =>
        split at hs
        next sys hrun =>
          obtain rfl := Option.some.inj hs
          rw [hrun] at hkeeps
          exact hkeeps
        next e sys hrun =>
          obtain rfl := Option.some.inj hs
          rw [hrun] at hkeeps
          exact hkeeps
    next => cases hs
  | forceCompact =>
    rw [SnapshotRun.step] at hs
    split at hs
    next =>
      obtain rfl := Option.some.inj hs
      exact .rfl' _
    next => cases hs
  | advance plan =>
    have hnamed : NamesFresh (r.planned plan) r.pc := by
      cases hpc : r.pc <;> rw [hpc] at h <;> exact h
    have hkeeps := (hplanned plan).trans (keeps_advance hnamed)
    rw [SnapshotRun.step] at hs
    split at hs
    next pc sys hrun =>
      obtain rfl := Option.some.inj hs
      rw [hrun] at hkeeps
      exact hkeeps
    next e sys hrun =>
      obtain rfl := Option.some.inj hs
      rw [hrun] at hkeeps
      exact hkeeps
  | snapshot =>
    obtain rfl := Option.some.inj hs
    exact .rfl' _

omit [Lz4] [BloomSizing] in
theorem namesFresh_compactions (sys : LsmSystem) (rest : List Bool) :
    NamesFresh sys (.compactions rest) := by
  cases rest <;> trivial

/-- The path leads to the new file from the rename on. -/
theorem Inv.namesFresh_advance (h : r.Inv) (hn : NamesFresh r.sys r.pc) {plan : List Answer}
    {pc : WriterPc} {sys : LsmSystem} (hrun : Lsm.advance r.pc (r.planned plan) = (.ok pc, sys)) :
    NamesFresh sys pc := by
  have hnext := next_of_advance hrun
  cases hpc : r.pc with
  | reserved rest sstables generation =>
    rw [hpc] at hrun
    have hplace := h.place
    rw [hpc] at hplace
    obtain ⟨-, rfl⟩ := hplace
    obtain ⟨tables, htables, -⟩ := h.live
    rw [Lsm.advance, Effect.bind_apply_of_ok (Effect.get_apply _)] at hrun
    rcases hwrite : writeMerged (r.planned plan).backend.path
      (writeOptions (r.planned plan).backend.options) r.sys.backend.state.sstables generation
      (r.planned plan).os with ⟨e | fresh, os'⟩
    · rw [bind_io_of_error hwrite] at hrun
      cases hrun
    · rw [bind_io_of_ok hwrite] at hrun
      cases hrun
      exact names_of_writeMerged htables hwrite
  | renamed rest fresh =>
    rw [hpc] at hrun hn
    rw [Lsm.advance] at hrun
    rcases hsync : syncParentDir (r.planned plan).os with ⟨e | u, os'⟩
    · rw [bind_io_of_error hsync] at hrun
      cases hrun
    · rw [bind_io_of_ok hsync] at hrun
      cases hrun
      exact (congrFun (syncParentDir_cases hsync).2.2.1 _).trans hn
  | idle =>
    rw [hpc] at hnext
    rw [hnext]
    trivial
  | logged pending =>
    rw [hpc] at hnext
    obtain rfl | rfl := hnext <;> trivial
  | flushing rest =>
    rw [hpc] at hnext
    obtain rfl | ⟨memtable, generation, rfl⟩ := hnext
    · exact namesFresh_compactions sys rest
    · trivial
  | setAside rest memtable generation =>
    rw [hpc] at hnext
    obtain ⟨handle, manifest, rfl⟩ := hnext
    trivial
  | written rest generation handle manifest =>
    rw [hpc] at hnext
    obtain rfl | rfl := hnext
    · exact namesFresh_compactions sys rest
    · trivial
  | compacting force rest =>
    rw [hpc] at hnext
    obtain rfl | ⟨sstables, rfl⟩ := hnext
    · exact namesFresh_compactions sys rest
    · trivial
  | picked rest sstables =>
    rw [hpc] at hnext
    obtain ⟨generation, rfl⟩ := hnext
    trivial
  | durable rest fresh =>
    rw [hpc] at hnext
    rw [hnext]
    trivial
  | switched rest fresh =>
    rw [hpc] at hnext
    rw [hnext]
    exact namesFresh_compactions sys rest

theorem Inv.namesFresh_step (h : r.Inv) (hn : NamesFresh r.sys r.pc) {a : SnapshotStep}
    (hs : r.step a = some r') : NamesFresh r'.sys r'.pc := by
  cases a with
  | commit pending plan =>
    rw [SnapshotRun.step] at hs
    split at hs
    next hpc =>
      split at hs
      next =>
        obtain rfl := Option.some.inj hs
        exact hn
      next =>
        split at hs
        next =>
          obtain rfl := Option.some.inj hs
          trivial
        next =>
          obtain rfl := Option.some.inj hs
          rw [hpc]
          trivial
    next => cases hs
  | forceCompact =>
    rw [SnapshotRun.step] at hs
    split at hs
    next =>
      obtain rfl := Option.some.inj hs
      trivial
    next => cases hs
  | advance plan =>
    rw [SnapshotRun.step] at hs
    split at hs
    next pc sys hrun =>
      obtain rfl := Option.some.inj hs
      exact h.namesFresh_advance hn hrun
    next =>
      obtain rfl := Option.some.inj hs
      trivial
  | snapshot =>
    obtain rfl := Option.some.inj hs
    exact hn

end SnapshotRun

section

variable [Lz4] [BloomSizing]

/-- How far a backup is. -/
inductive BackupPc where
  | idle
  /-- The target has been checked. -/
  | checked (dest : String)
  /-- The snapshot is taken; beside it stands what was committed then. -/
  | reading (dest : String) (snap : ReadSnapshot) (D : OrdMap Bytes Bytes)
  /-- The copy is there under the temporary name. -/
  | written (dest : String) (D : OrdMap Bytes Bytes)
  /-- It has its name. -/
  | named (dest : String) (D : OrdMap Bytes Bytes)

structure CopyRun where
  engine : SnapshotRun
  backup : BackupPc
  /-- Where the last backup has made its copy, if it has returned `Ok`, and what was committed when
  its snapshot was taken. -/
  copied : Option (String × OrdMap Bytes Bytes)

inductive CopyStep where
  /-- The writer goes on, or a reader takes a snapshot. -/
  | engine (a : SnapshotStep)
  /-- A backup begins; a plan answers the calls of a section. -/
  | backupTo (dest : String) (plan : List Answer)
  /-- The backup runs its next section. -/
  | goOn (plan : List Answer)

namespace CopyRun

def os (r : CopyRun) : Os := r.engine.sys.os

def path (r : CopyRun) : String := r.engine.sys.backend.path

/-- A section of the backup has ended, and with an error the backup has. -/
def after (r : CopyRun) (next : BackupPc) (copied : Option (String × OrdMap Bytes Bytes)) :
    Except BknError Unit × Os → CopyRun
  | (.ok (), os) => ⟨{ r.engine with sys := { r.engine.sys with os } }, next, copied⟩
  | (.error _, os) => ⟨{ r.engine with sys := { r.engine.sys with os } }, .idle, none⟩

def step (r : CopyRun) : CopyStep → Option CopyRun
  | .engine a => (r.engine.step a).map fun engine ↦ { r with engine }
  | .backupTo dest plan =>
    match r.backup with
    | .idle => some (r.after (.checked dest) none (checkTarget dest (r.os.withPlan plan)))
    | _ => none
  | .goOn plan =>
    match r.backup with
    | .idle => none
    | .checked dest => some { r with
        backup := .reading dest (snapshot r.engine.sys.backend) r.engine.committed }
    | .reading dest snap D => some (r.after (.written dest D) none
        (writeCopy snap (writeOptions r.engine.sys.backend.options) dest (r.os.withPlan plan)))
    | .written dest D => some (r.after (.named dest D) none
        (Os.rename ioErr (backupTmpPath dest) dest (r.os.withPlan plan)))
    | .named dest D =>
      some (r.after .idle (some (dest, D)) (syncParentDir (r.os.withPlan plan)))

/-- An engine as an open leaves it, no backup begun. -/
structure Opened (r : CopyRun) : Prop where
  engine : r.engine.Opened
  separate : Separate r.engine.sys
  backup : r.backup = .idle
  copied : r.copied = none

/-- The target is not a name of the engine, and the database is not at the temporary name. -/
def Aside (path dest : String) : Prop := ¬Own path dest ∧ backupTmpPath dest ≠ path

instance (path dest : String) : Decidable (Aside path dest) := inferInstanceAs (Decidable (_ ∧ _))

/-- No flush fails with its memtable set aside, and a backup does not go to the database itself. -/
def Unobstructed (r : CopyRun) : CopyStep → Prop
  | .engine a => r.engine.Unobstructed a
  | .backupTo dest _ => Aside r.path dest
  | .goOn _ => True

instance (r : CopyRun) : (a : CopyStep) → Decidable (r.Unobstructed a)
  | .engine a => inferInstanceAs (Decidable (r.engine.Unobstructed a))
  | .backupTo dest _ => inferInstanceAs (Decidable (Aside r.path dest))
  | .goOn _ => .isTrue trivial

/-- **A copy that was made** opens as a database of exactly what was committed when its snapshot was
taken. -/
def Copied (r : CopyRun) : Prop :=
  ∀ dest D, r.copied = some (dest, D) → ∀ options, ∃ b os',
    openWithOptions dest options (r.os.withPlan []) = (.ok b, os') ∧ HoldsExactly ⟨os', b⟩ D

/-! ## The invariant -/

/-- What holds where the backup is. -/
def AtBackup (path : String) (os : Os) : BackupPc → Prop
  | .idle => True
  | .checked dest => Aside path dest
  | .reading dest snap D => Aside path dest ∧ SnapshotDenotes snap D
  | .written dest D => Aside path dest ∧ Finished os (backupTmpPath dest) D
  | .named dest D => Aside path dest ∧ Finished os dest D

/-- A copy that was made is still there. -/
def Present (path : String) (os : Os) (copied : Option (String × OrdMap Bytes Bytes)) : Prop :=
  ∀ dest D, copied = some (dest, D) → ¬Own path dest ∧ Finished os dest D

structure Inv (r : CopyRun) : Prop where
  engine : r.engine.Inv
  namesFresh : NamesFresh r.engine.sys r.engine.pc
  separate : Separate r.engine.sys
  backup : AtBackup r.path r.os r.backup
  copied : Present r.path r.os r.copied

omit [BloomSizing] in
theorem present_none (path : String) (os : Os) : Present path os none := fun _ _ h ↦ by cases h

section

variable {r r' : CopyRun}

omit [BloomSizing] in
theorem Opened.inv (h : r.Opened) : r.Inv where
  engine := h.engine.inv
  namesFresh := by
    rw [h.engine.pc]
    trivial
  separate := h.separate
  backup := by
    rw [h.backup]
    trivial
  copied := by
    rw [h.copied]
    exact present_none _ _

theorem Inv.copied_of_present (h : r.Inv) : r.Copied := fun dest D hcopied options ↦ by
  obtain ⟨hown, hfinished⟩ := h.copied dest D hcopied
  exact hfinished.opens (fun _ hj ↦ h.separate.lt_next hown hj) options

/-- The engine goes on: what it does leaves the copies as they are. -/
theorem Inv.goes_on (h : r.Inv) {a : SnapshotStep} (hclear : r.engine.Unobstructed a)
    {engine : SnapshotRun} (hs : r.engine.step a = some engine) : Inv { r with engine } := by
  have hkeeps := SnapshotRun.keeps h.namesFresh hs
  have hpath : engine.sys.backend.path = r.path := hkeeps.path
  have hfinished : ∀ name D, ¬Own r.path name → Finished r.os name D →
      Finished engine.sys.os name D := fun _ _ hown ↦ h.separate.finished hkeeps hown
  refine ⟨h.engine.step hclear hs, h.engine.namesFresh_step h.namesFresh hs,
    h.separate.keeps hkeeps, ?_, fun dest D hcopied ↦ ?_⟩
  · change AtBackup engine.sys.backend.path engine.sys.os r.backup
    have hbackup := h.backup
    rw [hpath]
    cases hpc : r.backup with
    | idle => trivial
    | checked dest =>
      rw [hpc] at hbackup
      exact hbackup
    | reading dest snap D =>
      rw [hpc] at hbackup
      exact hbackup
    | written dest D =>
      rw [hpc] at hbackup
      exact hbackup.imp_right (hfinished _ _ (not_own_tmp hbackup.1.2))
    | named dest D =>
      rw [hpc] at hbackup
      exact hbackup.imp_right (hfinished _ _ hbackup.1.1)
  · change ¬Own engine.sys.backend.path dest ∧ Finished engine.sys.os dest D
    rw [hpath]
    exact (h.copied dest D hcopied).imp_right
      (hfinished dest D (h.copied dest D hcopied).1)

omit [BloomSizing] in
/-- A section of the backup that does not touch the engine's names has ended. -/
theorem Inv.ended (h : r.Inv) {x : Except BknError Unit × Os}
    (hpath : x.2.names r.path = r.os.names r.path)
    (hseparate : Separate { r.engine.sys with os := x.2 }) {next : BackupPc}
    {copied : Option (String × OrdMap Bytes Bytes)}
    (hnext : x.1 = .ok () → AtBackup r.path x.2 next ∧ Present r.path x.2 copied) :
    (r.after next copied x).Inv := by
  have hengine : SnapshotRun.Inv { r.engine with sys := { r.engine.sys with os := x.2 } } :=
    ⟨h.engine.readers, h.engine.live, h.engine.place⟩
  have hnamed : NamesFresh { r.engine.sys with os := x.2 } r.engine.pc := by
    have hfresh := h.namesFresh
    cases hpc : r.engine.pc <;> rw [hpc] at hfresh <;> first | trivial | exact hpath.trans hfresh
  obtain ⟨res, os'⟩ := x
  cases res with
  | ok u => exact ⟨hengine, hnamed, hseparate, (hnext rfl).1, (hnext rfl).2⟩
  | error e => exact ⟨hengine, hnamed, hseparate, trivial, present_none _ _⟩

omit [BloomSizing] in
theorem Inv.planned (h : r.Inv) (plan : List Answer) :
    Separate { r.engine.sys with os := r.os.withPlan plan } :=
  ⟨h.separate.foreign, h.separate.bounded⟩

omit [BloomSizing] in
theorem Inv.beside (h : r.Inv) {dest : String} (haside : Aside r.path dest) {plan : List Answer}
    {x : Except BknError Unit × Os} (hb : (r.os.withPlan plan).Beside (backupTmpPath dest) x.2)
    {next : BackupPc} (hnext : x.1 = .ok () → AtBackup r.path x.2 next) :
    (r.after next none x).Inv := by
  have hseparate := (h.planned plan).beside (not_own_tmp haside.2) hb
  exact h.ended (hb.names _ haside.2.symm) hseparate fun hok ↦ ⟨hnext hok, present_none _ _⟩

omit [BloomSizing] in
theorem Inv.renamed (h : r.Inv) {dest : String} {D : OrdMap Bytes Bytes}
    (haside : Aside r.path dest) (hfinished : Finished r.os (backupTmpPath dest) D)
    (plan : List Answer) : (r.after (.named dest D) none
      (Os.rename ioErr (backupTmpPath dest) dest (r.os.withPlan plan))).Inv := by
  have hown := not_own_tmp haside.2
  have hseparate := (h.planned plan).rename hown haside.1
  refine h.ended ?_ hseparate fun hok ↦ ⟨⟨haside, ?_⟩, present_none _ _⟩
  · -- the path is neither of the two names
    rw [Os.rename]
    cases (r.os.withPlan plan).answer with
    | fail n => rfl
    | done =>
      change Function.update (Function.update r.os.names _ _) _ none r.path = _
      rw [Function.update_of_ne haside.2.symm, Function.update_of_ne]
      exact fun heq ↦ haside.1 (.inl heq.symm)
  · have hplanned : Finished (r.os.withPlan plan) (backupTmpPath dest) D :=
      hfinished.congr rfl fun _ _ ↦ rfl
    exact hplanned.rename (Prod.ext hok rfl)

omit [BloomSizing] in
theorem Inv.synced (h : r.Inv) {dest : String} {D : OrdMap Bytes Bytes}
    (haside : Aside r.path dest) (hfinished : Finished r.os dest D) (plan : List Answer) :
    (r.after .idle (some (dest, D)) (syncParentDir (r.os.withPlan plan))).Inv := by
  obtain ⟨hinodes, hnext, hnames, -⟩ :=
    @syncParentDir_cases (r.os.withPlan plan) _ (syncParentDir (r.os.withPlan plan)).1 rfl
  refine h.ended (congrFun hnames _) ?_ fun _ ↦ ⟨trivial, fun name E hcopied ↦ ?_⟩
  · refine h.separate.outside (fun _ _ ↦ congrFun hnames _) hnext.ge fun name j hown hj ↦ .inl ?_
    exact ⟨name, hown, (congrFun hnames name).symm.trans hj⟩
  · cases hcopied
    exact ⟨haside.1, hfinished.congr (congrFun hnames _) fun _ _ ↦ congrFun hinodes _⟩

/-- **Every unobstructed step keeps the invariant.** -/
theorem Inv.step {a : CopyStep} (h : r.Inv) (hclear : r.Unobstructed a) (hs : r.step a = some r') :
    r'.Inv := by
  cases a with
  | engine a =>
    obtain ⟨engine, hengine, rfl⟩ := Option.map_eq_some_iff.mp hs
    exact h.goes_on hclear hengine
  | backupTo dest plan =>
    rw [CopyRun.step] at hs
    split at hs
    next =>
      obtain rfl := Option.some.inj hs
      exact h.beside hclear (beside_checkTarget dest _) fun _ ↦ hclear
    next => cases hs
  | goOn plan =>
    have hbackup := h.backup
    rw [CopyRun.step] at hs
    split at hs
    next => cases hs
    next dest hpc =>
      obtain rfl := Option.some.inj hs
      rw [hpc] at hbackup
      exact ⟨h.engine, h.namesFresh, h.separate, ⟨hbackup, h.engine.live⟩, h.copied⟩
    next dest snap D hpc =>
      obtain rfl := Option.some.inj hs
      rw [hpc] at hbackup
      obtain ⟨haside, hsnap⟩ := hbackup
      have hmerged : MergeIter.merged (scanSources snap none .unbounded .unbounded) =
          D.entries.map .ok := by
        rw [merged_scanSources hsnap, overlaid, OrdMap.range_unbounded]
      exact h.beside haside (beside_writeCopy snap _ dest _) fun hok ↦
        ⟨haside, finished_of_writeCopy hmerged (Prod.ext hok rfl)⟩
    next dest D hpc =>
      obtain rfl := Option.some.inj hs
      rw [hpc] at hbackup
      exact h.renamed hbackup.1 hbackup.2 plan
    next dest D hpc =>
      obtain rfl := Option.some.inj hs
      rw [hpc] at hbackup
      exact h.synced hbackup.1 hbackup.2 plan

/-- **A backup is a faithful snapshot.** In every run of an opened engine with backups, in which no
flush fails with its memtable set aside and no backup goes to the database itself, a copy that was
made opens as a database of exactly what was committed when its snapshot was taken. -/
theorem copied_of_unobstructed (r : CopyRun) (hr : r.Opened) (steps : List CopyStep)
    (hclear : Run.EachStep step Unobstructed r steps) (r' : CopyRun)
    (hrun : Run.run step r steps = some r') : r'.Copied :=
  (Run.invariant (fun _ _ _ ↦ Inv.step) hr.inv hclear hrun).copied_of_present

end

end CopyRun

end

/-! ## Runs with a backup -/

namespace CopyRun

open Lsm.Sample

/-- An engine with an empty database, and no backup. -/
def begun : CopyRun := ⟨freshRun, .idle, none⟩

theorem opened_begun : begun.Opened := by
  refine ⟨opened_freshRun, ⟨fun name j hown hname ↦ ?_, by decide, fun name j _ hname ↦ ?_⟩, rfl,
    rfl⟩
  · change (if name = "db" then some 0 else none) = some j at hname
    have hne : name ≠ "db" := fun heq ↦ hown (.inl heq)
    rw [if_neg hne] at hname
    cases hname
  · change (if name = "db" then some 0 else none) = some j at hname
    split at hname
    · cases hname
      exact Nat.one_pos
    · cases hname

/-- A commit and its flush; then a backup, with a commit, a flush and a merge between its sections,
and a commit behind it. -/
def besideMerge : List CopyStep :=
  [.engine (.commit (putOne [7] [1]) []), .engine (.advance []), .engine (.advance []),
    .engine (.advance []), .engine (.advance []), .backupTo "copy" [], .goOn [],
    .engine (.commit (putOne [7] [2]) []), .engine (.advance []), .engine (.advance []),
    .engine (.advance []), .engine (.advance []), .goOn [], .engine (.advance []),
    .engine (.advance []), .engine (.advance []), .engine (.advance []), .goOn [],
    .engine (.advance []), .engine (.advance []), .goOn [], .engine (.commit (putOne [8] [3]) [])]

/-- What the copy is to hold under the key. -/
def valueAt (key : Bytes) (r : CopyRun) : Option (String × Option Bytes) :=
  r.copied.map fun x ↦ (x.1, (Keys.tableOf x.2 (Keys.prefixBytes "t")).get? key)

theorem copied_of_unobstructed_besideMerge : ∃ r', Run.run step begun besideMerge = some r' ∧
    valueAt [7] r' = some ("copy", some [1]) ∧ r'.Copied := by
  have hvalue : (Run.run step begun besideMerge).any
      (fun r ↦ valueAt [7] r = some ("copy", some [1])) = true := by decide +kernel
  obtain ⟨r', hrun, hvalue⟩ := (Option.any_eq_true _ _).mp hvalue
  exact ⟨r', hrun, of_decide_eq_true hvalue,
    copied_of_unobstructed begun opened_begun besideMerge (by decide +kernel) r' hrun⟩

/-- A flush fails with its memtable set aside, the next one goes through, and a backup takes its
snapshot. -/
def behindStuck : List CopyStep :=
  SnapshotRun.stuckSteps.map .engine ++ [.backupTo "copy" [], .goOn []]

/-- The rest of the backup. -/
def finishing : List CopyStep := [.goOn [], .goOn [], .goOn []]

/-- The value that was overwritten. -/
def overwritten : OrdMap Bytes Bytes := OrdMap.insert ∅ (Keys.prefixBytes "t" ++ [7]) [1]

/-- What the merge of the snapshot gives. -/
def mergeGives (E : OrdMap Bytes Bytes) (r : CopyRun) : Bool :=
  match r.backup with
  | .reading dest snap _ =>
    dest == "copy" && decide ((MergeIter.merged
      (scanSources snap none .unbounded .unbounded)).map Except.toOption = E.entries.map some)
  | _ => false

/-- A backup that goes on has not failed. -/
theorem ok_of_goes_on {r r' : CopyRun} {x : Except BknError Unit × Os} {next : BackupPc}
    {copied : Option (String × OrdMap Bytes Bytes)} {plan : List Answer}
    (hs : (r.after next copied x).step (.goOn plan) = some r') : x.1 = .ok () ∧
      r.after next copied x =
        ⟨{ r.engine with sys := { r.engine.sys with os := x.2 } }, next, copied⟩ := by
  rcases x with ⟨e | u, os⟩
  · cases hs
  · exact ⟨rfl, rfl⟩

theorem os_after (r : CopyRun) (next : BackupPc) (copied : Option (String × OrdMap Bytes Bytes))
    (x : Except BknError Unit × Os) : (r.after next copied x).os = x.2 := by
  rcases x with ⟨e | u, os⟩ <;> rfl

/-- The copy is made of what the merge gives. -/
theorem finished_of_mergeGives {E : OrdMap Bytes Bytes} {r r' : CopyRun}
    (h : mergeGives E r = true) (hrun : Run.run step r finishing = some r') :
    Finished r'.os "copy" E := by
  rw [mergeGives] at h
  split at h
  next dest snap D hpc =>
    obtain ⟨hdest, hmerged⟩ := Bool.and_eq_true_iff.mp h
    obtain rfl := beq_iff_eq.mp hdest
    obtain ⟨r₁, hs₁, hrun⟩ := Option.bind_eq_some_iff.mp hrun
    obtain ⟨r₂, hs₂, hrun⟩ := Option.bind_eq_some_iff.mp hrun
    obtain ⟨r₃, hs₃, hrun⟩ := Option.bind_eq_some_iff.mp hrun
    obtain rfl := Option.some.inj hrun
    rw [CopyRun.step, hpc] at hs₁
    obtain rfl := Option.some.inj hs₁
    obtain ⟨hwrite, heq⟩ := ok_of_goes_on hs₂
    set os₁ := (writeCopy snap (writeOptions r.engine.sys.backend.options) "copy"
      (r.os.withPlan [])).2
    have hwritten : Finished (os₁.withPlan []) (backupTmpPath "copy") E :=
      (finished_of_writeCopy (Except.eq_map_ok (of_decide_eq_true hmerged))
        (Prod.ext hwrite rfl)).congr rfl fun _ _ ↦ rfl
    rw [heq] at hs₂
    obtain rfl := Option.some.inj hs₂
    obtain ⟨hrename, heq'⟩ := ok_of_goes_on hs₃
    set os₂ := (Os.rename ioErr (backupTmpPath "copy") "copy" (os₁.withPlan [])).2
    have hnamed : Finished os₂ "copy" E := hwritten.rename (Prod.ext hrename rfl)
    rw [heq'] at hs₃
    obtain rfl := Option.some.inj hs₃
    obtain ⟨hinodes, -, hnames, -⟩ :=
      @syncParentDir_cases (os₂.withPlan []) _ (syncParentDir (os₂.withPlan [])).1 rfl
    rw [os_after]
    exact hnamed.congr (congrFun hnames _) fun _ _ ↦ congrFun hinodes _
  next => cases h

/-- **After a flush that failed, a copy holds a value that was overwritten.** -/
theorem not_copied :
    ¬∀ r : CopyRun, r.Opened → ∀ (steps : List CopyStep) (r' : CopyRun),
      Run.run step r steps = some r' → r'.Copied := by
  intro h
  have hmerge : (Run.run step begun behindStuck).any (fun r ↦ mergeGives overwritten r &&
      (Run.run step r finishing).any fun r' ↦ decide (valueAt [7] r' = some ("copy", some [2])) &&
        (r'.os.names "copy").all (· < r'.os.next)) = true := by decide +kernel
  obtain ⟨r, hrun, hmerge⟩ := (Option.any_eq_true _ _).mp hmerge
  obtain ⟨hmerge, hrest⟩ := Bool.and_eq_true_iff.mp hmerge
  obtain ⟨r', hrun', hrest⟩ := (Option.any_eq_true _ _).mp hrest
  obtain ⟨hvalue, hlt⟩ := Bool.and_eq_true_iff.mp hrest
  obtain ⟨⟨dest, D⟩, hcopied, hvalue⟩ := Option.map_eq_some_iff.mp (of_decide_eq_true hvalue)
  obtain ⟨rfl, hvalue⟩ := Prod.mk.inj hvalue
  have hfinished := finished_of_mergeGives hmerge hrun'
  obtain ⟨b, os', hopen, hholds⟩ := hfinished.opens (fun j hj ↦ by
    rw [hj] at hlt
    exact of_decide_eq_true hlt) eagerOptions
  have hwhole : Run.run step begun (behindStuck ++ finishing) = some r' := by
    rw [Run.run_append, hrun]
    exact hrun'
  obtain ⟨b', os'', hopen', hholds'⟩ := h begun opened_begun _ r' hwhole _ D hcopied eagerOptions
  rw [hopen] at hopen'
  cases hopen'
  have hget := hholds.reads.get_eq "t" (by decide) [7]
  rw [hholds'.reads.get_eq "t" (by decide) [7], hvalue] at hget
  cases hget

end CopyRun
