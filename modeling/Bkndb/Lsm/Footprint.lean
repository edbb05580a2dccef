import Bkndb.Lsm.Survival

/-!
# The files of the engine

The engine reaches files by two names, the path of the database and that of the file that a
compaction writes, and it holds one file open. Whatever it does, it changes only these files, and
files that it makes.

`Keeps` is what the rest of the system may rely on: names outside lead where they led, files
outside have the contents they had, and the file that the engine holds open is one of its own. It
composes, so it is proved section by section and holds of every step, of an open, and of a run.

A merge writes under the temporary name and then renames, so that the path leads to another file,
while the engine still holds the old one open until it switches.
-/

open Container

namespace Lsm

variable [Lz4] [BloomSizing]

/-- The engine has kept to its own files. -/
structure Keeps (s s' : LsmSystem) : Prop where
  path : s'.backend.path = s.backend.path
  within : Os.Within (Own s.backend.path) s.backend.container.file s'.backend.container.file s.os
    s'.os

/-- It still holds the same file open. -/
def KeepsHold (i : ℕ) (s s' : LsmSystem) : Prop :=
  s.backend.container.file = i → s'.backend.container.file = i ∧ Keeps s s'

omit [Lz4] [BloomSizing] in
theorem Keeps.rfl' (s : LsmSystem) : Keeps s s := ⟨rfl, .rfl'⟩

omit [Lz4] [BloomSizing] in
theorem Keeps.trans {s s' s'' : LsmSystem} (h : Keeps s s') (h' : Keeps s' s'') : Keeps s s'' := by
  obtain ⟨hpath, hwithin⟩ := h
  obtain ⟨hpath', hwithin'⟩ := h'
  rw [hpath] at hwithin'
  exact ⟨hpath'.trans hpath, hwithin.trans hwithin'⟩

omit [Lz4] [BloomSizing] in
theorem KeepsHold.rfl' (i : ℕ) (s : LsmSystem) : KeepsHold i s s := fun hi ↦ ⟨hi, .rfl' s⟩

omit [Lz4] [BloomSizing] in
theorem KeepsHold.trans {i : ℕ} {s s' s'' : LsmSystem} (h : KeepsHold i s s')
    (h' : KeepsHold i s' s'') : KeepsHold i s s'' := fun hi ↦ by
  obtain ⟨hi', hk⟩ := h hi
  obtain ⟨hi'', hk'⟩ := h' hi'
  exact ⟨hi'', hk.trans hk'⟩

section

variable {α β : Type}

omit [Lz4] [BloomSizing] in
theorem keepsHold_bind {i : ℕ} {x : Effect LsmSystem BknError α}
    {f : α → Effect LsmSystem BknError β} (hx : Effect.Steps (KeepsHold i) x)
    (hf : ∀ a, Effect.Steps (KeepsHold i) (f a)) : Effect.Steps (KeepsHold i) (x >>= f) :=
  Effect.Steps.bind (R := KeepsHold i) (fun _ _ _ ↦ KeepsHold.trans) hx hf

omit [Lz4] [BloomSizing] in
theorem keepsHold_pure (i : ℕ) (a : α) :
    Effect.Steps (KeepsHold i) (pure a : Effect LsmSystem BknError α) :=
  Effect.steps_pure (KeepsHold.rfl' i) a

omit [Lz4] [BloomSizing] in
theorem keepsHold_get (i : ℕ) :
    Effect.Steps (KeepsHold i) (Effect.get : Effect LsmSystem BknError LsmSystem) :=
  Effect.steps_get (KeepsHold.rfl' i)

omit [Lz4] [BloomSizing] in
theorem keepsHold_ofExcept (i : ℕ) (x : Except BknError α) :
    Effect.Steps (KeepsHold i) (Effect.ofExcept x : Effect LsmSystem BknError α) :=
  Effect.steps_ofExcept (KeepsHold.rfl' i) x

omit [Lz4] [BloomSizing] in
theorem keepsHold_modifyState (i : ℕ) (f : EngineState → EngineState) :
    Effect.Steps (KeepsHold i) (modifyState f) := fun _ hi ↦ ⟨hi, rfl, .rfl'⟩

omit [Lz4] [BloomSizing] in
theorem keepsHold_io {i : ℕ} {x : Effect Os BknError α} (hx : Effect.Steps (Os.Touches i) x) :
    Effect.Steps (KeepsHold i) (io x) := fun s hi ↦
  ⟨hi, rfl, .of_touches (hx s.os) (.inl hi.symm)⟩

end

/-! ## The sections

All sections but two only touch the file that is held open. Writing the merge makes a new file;
switching to it changes which file is held. -/

omit [Lz4] [BloomSizing] in
theorem keepsHold_applyPending (i : ℕ) (pending : Pending) :
    Effect.Steps (KeepsHold i) (applyPending pending) :=
  keepsHold_bind (keepsHold_modifyState i _) fun _ ↦ keepsHold_bind (keepsHold_get i) fun _ ↦
    keepsHold_pure i _

omit [Lz4] [BloomSizing] in
theorem keepsHold_beginFlush (i : ℕ) : Effect.Steps (KeepsHold i) beginFlush := by
  refine keepsHold_bind (keepsHold_get i) fun s ↦ ?_
  dsimp only
  split
  · exact keepsHold_pure i _
  · exact keepsHold_bind (keepsHold_modifyState i _) fun _ ↦
      keepsHold_bind (keepsHold_ofExcept i _) fun _ ↦
        keepsHold_bind (keepsHold_modifyState i _) fun _ ↦ keepsHold_pure i _

omit [Lz4] [BloomSizing] in
theorem keepsHold_publishFlush (i generation : ℕ) (handle : SstableHandle) (manifest : Manifest) :
    Effect.Steps (KeepsHold i) (publishFlush generation handle manifest) :=
  keepsHold_bind (keepsHold_modifyState i _) fun _ ↦ keepsHold_bind (keepsHold_get i) fun _ ↦
    keepsHold_pure i _

omit [Lz4] [BloomSizing] in
theorem keepsHold_pickSstables (i : ℕ) (force : Bool) :
    Effect.Steps (KeepsHold i) (pickSstables force) := by
  refine keepsHold_bind (keepsHold_get i) fun s ↦ ?_
  dsimp only
  split
  · exact keepsHold_pure i _
  · exact keepsHold_pure i _

omit [Lz4] [BloomSizing] in
theorem keepsHold_reserveGeneration (i : ℕ) : Effect.Steps (KeepsHold i) reserveGeneration :=
  keepsHold_bind (keepsHold_get i) fun _ ↦ keepsHold_bind (keepsHold_ofExcept i _) fun _ ↦
    keepsHold_bind (keepsHold_modifyState i _) fun _ ↦ keepsHold_pure i _

theorem keeps_writeFlush (memtable : Memtable) (generation : ℕ) (s : LsmSystem) :
    KeepsHold s.backend.container.file s (writeFlush memtable generation s).2 := by
  set i := s.backend.container.file with hi
  rw [writeFlush, Effect.bind_apply_of_ok (Effect.get_apply s)]
  refine keepsHold_bind (keepsHold_io (Sst.steps_write i _ _ _ _)) (fun handle ↦ ?_) s
  refine keepsHold_bind (keepsHold_io (steps_writeBlobAt i _ _)) fun _ ↦ ?_
  refine keepsHold_bind (keepsHold_io (Os.steps_sync _ i)) fun _ ↦ ?_
  refine keepsHold_bind (keepsHold_io (steps_writeHeader i _ _ _ _)) fun header ↦ ?_
  refine keepsHold_bind (fun s' hi' ↦ ⟨hi', rfl, .rfl'⟩) fun _ ↦ keepsHold_pure i _

/-- A merge writes the temporary file and gives it the name of the database. -/
theorem within_writeMerged (path : String) (opts : Sst.WriteOptions) (sstables : List SstableHandle)
    (generation i : ℕ) (os : Os) : Os.Within (Own path) i i os
      (writeMerged path opts sstables generation os).2 := by
  have htrans : ∀ os₁ os₂ os₃ : Os, os₁.Within (Own path) i i os₂ → os₂.Within (Own path) i i os₃ →
      os₁.Within (Own path) i i os₃ := fun _ _ _ ↦ Os.Within.trans
  refine Effect.Steps.bind htrans (fun os ↦ ?_) (fun fresh ↦ ?_) os
  · exact .of_beside (beside_writeFreshContainer ..) (.inr rfl)
  refine Effect.Steps.bind htrans (fun os ↦ ?_) fun _ ↦ ?_
  · exact .of_touches (Os.steps_call _ i os) (.inl rfl)
  refine Effect.Steps.bind htrans (fun os ↦ ?_) fun _ ↦ ?_
  · exact Os.within_rename (.inr rfl) (.inl rfl) _ i os
  · exact Effect.steps_pure (fun _ ↦ .rfl') fresh

/-- The path leads to the file that the engine is about to hold open. -/
def NamesFresh (s : LsmSystem) : WriterPc → Prop
  | .renamed _ fresh | .durable _ fresh => s.os.names s.backend.path = some fresh.file
  | _ => True

/-- **A section** keeps to the engine's files. -/
theorem keeps_advance {s : LsmSystem} {pc : WriterPc} (h : NamesFresh s pc) :
    Keeps s (Lsm.advance pc s).2 := by
  have hhold : ∀ {x : Effect LsmSystem BknError WriterPc},
      Effect.Steps (KeepsHold s.backend.container.file) x → Keeps s (x s).2 := fun hx ↦ (hx s rfl).2
  set i := s.backend.container.file
  cases pc with
  | idle => exact .rfl' s
  | logged pending =>
    refine hhold (keepsHold_bind (keepsHold_applyPending i pending) fun b ↦ ?_)
    split <;> exact keepsHold_pure i _
  | flushing rest =>
    refine hhold (keepsHold_bind (keepsHold_beginFlush i) fun o ↦ ?_)
    split <;> exact keepsHold_pure i _
  | setAside rest memtable generation =>
    refine (Effect.Steps.bind (R := Keeps) (fun _ _ _ ↦ Keeps.trans) (fun s ↦ ?_) fun out ↦ ?_) s
    · exact (keeps_writeFlush memtable generation s rfl).2
    · exact Effect.steps_pure Keeps.rfl' _
  | written rest generation handle manifest =>
    refine hhold (keepsHold_bind (keepsHold_publishFlush i _ _ _) fun b ↦ ?_)
    split <;> exact keepsHold_pure i _
  | compacting force rest =>
    refine hhold (keepsHold_bind (keepsHold_pickSstables i force) fun o ↦ ?_)
    split <;> exact keepsHold_pure i _
  | picked rest sstables =>
    exact hhold (keepsHold_bind (keepsHold_reserveGeneration i) fun _ ↦ keepsHold_pure i _)
  | reserved rest sstables generation =>
    rw [Lsm.advance, Effect.bind_apply_of_ok (Effect.get_apply s)]
    have hwithin := within_writeMerged s.backend.path (writeOptions s.backend.options) sstables
      generation i s.os
    rcases hrun : writeMerged s.backend.path (writeOptions s.backend.options) sstables generation
      s.os with ⟨e | fresh, os'⟩
    · rw [hrun] at hwithin
      rw [bind_io_of_error hrun]
      exact ⟨rfl, hwithin⟩
    · rw [hrun] at hwithin
      rw [bind_io_of_ok hrun]
      exact ⟨rfl, hwithin⟩
  | renamed rest fresh =>
    refine hhold (keepsHold_bind (keepsHold_io ?_) fun _ ↦ keepsHold_pure i _)
    exact Os.steps_bind (Os.steps_call _ i) fun _ ↦ Os.steps_call _ i
  | durable rest fresh =>
    exact ⟨rfl, .hold (.inl rfl) h⟩
  | switched rest fresh =>
    exact hhold (keepsHold_bind (keepsHold_modifyState i _) fun _ ↦ keepsHold_pure i _)

omit [BloomSizing] in
theorem AtPlace.namesFresh {tidy : Bool} {s : LsmSystem} {D : OrdMap Bytes Bytes} {pc : WriterPc}
    (h : AtPlace tidy s D pc) : NamesFresh s pc := by
  cases pc with
  | renamed rest fresh => exact h.placed.named
  | durable rest fresh => exact h.placed.named
  | _ => trivial

/-! ## Opening -/

/-- The path leads to this file, and keeps leading to it. -/
def KeepsNamed (path : String) (i c : ℕ) (os os' : Os) : Prop :=
  os.names path = some i → os'.names path = some i ∧ os.Within (Own path) c c os'

omit [Lz4] [BloomSizing] in
theorem KeepsNamed.rfl' (path : String) (i c : ℕ) (os : Os) : KeepsNamed path i c os os :=
  fun hi ↦ ⟨hi, .rfl'⟩

section

variable {path : String} {i c : ℕ} {α β : Type}

omit [Lz4] [BloomSizing] in
theorem keepsNamed_bind {x : Effect Os BknError α} {f : α → Effect Os BknError β}
    (hx : Effect.Steps (KeepsNamed path i c) x) (hf : ∀ a, Effect.Steps (KeepsNamed path i c) (f a)) :
    Effect.Steps (KeepsNamed path i c) (x >>= f) :=
  Effect.Steps.bind (R := KeepsNamed path i c) (fun _ _ _ h h' hi ↦
    ⟨(h' (h hi).1).1, (h hi).2.trans (h' (h hi).1).2⟩) hx hf

omit [Lz4] [BloomSizing] in
theorem keepsNamed_of_touches {x : Effect Os BknError α} (hx : Effect.Steps (Os.Touches i) x) :
    Effect.Steps (KeepsNamed path i c) x := fun os hi ↦
  ⟨by rw [(hx os).names]; exact hi, .of_touches (hx os) (.inr (.inr ⟨path, .inl rfl, hi⟩))⟩

omit [Lz4] [BloomSizing] in
theorem keepsNamed_removeTmp : Effect.Steps (KeepsNamed path i c)
    (Os.removeFile ioErr (compactionTmpPath path) : Effect Os BknError Unit) := fun os hi ↦ by
  have hbeside := Os.beside_removeFile (ε := BknError) ioErr (compactionTmpPath path) os
  exact ⟨by rw [hbeside.names path (compactionTmpPath_ne path).symm]; exact hi,
    .of_beside hbeside (.inr rfl)⟩

end

omit [Lz4] [BloomSizing] in
theorem steps_readOrBootstrap (i : ℕ) : Effect.Steps (Os.Touches i) (readOrBootstrap i) := by
  refine Os.steps_bind (Os.steps_read _ i i) fun file ↦ Os.steps_bind (Os.steps_ofExcept i _) fun o ↦ ?_
  cases o with
  | some slot =>
    exact Os.steps_bind (Os.steps_ofExcept i _) fun _ ↦ Os.steps_bind (Os.steps_ofExcept i _) fun _ ↦
      Os.steps_pure i _
  | none =>
    exact Os.steps_bind (steps_writeBlobAt i _ _) fun _ ↦ Os.steps_bind (Os.steps_sync _ i) fun _ ↦
      Os.steps_bind (steps_writeHeader i _ _ _ _) fun _ ↦ Os.steps_pure i _

omit [Lz4] [BloomSizing] in
theorem steps_recover (i start : ℕ) : Effect.Steps (Os.Touches i) (Wal.recover i start) := by
  refine Os.steps_bind (Os.steps_get i) fun os ↦ ?_
  refine Os.steps_bind (Os.steps_fileLen _ i i) fun len ↦ ?_
  split
  · exact Os.steps_bind (Os.steps_setLen _ i _) fun _ ↦ Os.steps_bind (Os.steps_sync _ i) fun _ ↦
      Os.steps_pure i _
  · exact Os.steps_pure i _

omit [Lz4] [BloomSizing] in
theorem steps_openSstables (i : ℕ) (refs : List SstableRef) :
    Effect.Steps (Os.Touches i) (openSstables i refs) := by
  induction refs with
  | nil => exact Os.steps_pure i _
  | cons r rs ih =>
    exact Os.steps_bind (Os.steps_read _ i i) fun _ ↦ Os.steps_bind (Os.steps_ofExcept i _) fun _ ↦
      Os.steps_bind ih fun _ ↦ Os.steps_pure i _

omit [Lz4] [BloomSizing] in
/-- **Opening a database** keeps to its files. -/
theorem within_openWithOptions (path : String) (options : LsmOptions) (c : ℕ) (os : Os) :
    os.Within (Own path) c c (openWithOptions path options os).2 := by
  have htrans : ∀ os₁ os₂ os₃ : Os, os₁.Within (Own path) c c os₂ → os₂.Within (Own path) c c os₃ →
      os₁.Within (Own path) c c os₃ := fun _ _ _ ↦ Os.Within.trans
  refine Effect.Steps.bind htrans (fun os ↦ ?_) (fun _ os ↦ ?_) os
  · exact .of_touches (Os.steps_call _ c os) (.inl rfl)
  obtain ⟨i, os₁, hopen, hbeside, hname, -⟩ | hopen := Os.openFile_cases ioErr path os
  · rw [Effect.bind_apply_of_ok hopen]
    refine (Os.Within.of_beside hbeside (.inl rfl)).trans
      ((?_ : KeepsNamed path i c os₁ _) hname).2
    refine keepsNamed_bind (keepsNamed_of_touches (Os.steps_call _ i)) (fun _ ↦ ?_) os₁
    refine keepsNamed_bind keepsNamed_removeTmp.ignore fun _ ↦ ?_
    refine keepsNamed_bind (keepsNamed_of_touches (steps_readOrBootstrap i)) fun out ↦ ?_
    refine keepsNamed_bind (keepsNamed_of_touches (steps_recover i _)) fun records ↦ ?_
    refine keepsNamed_bind (keepsNamed_of_touches (steps_openSstables i _)) fun sstables ↦ ?_
    exact Effect.steps_pure (KeepsNamed.rfl' path i c) _
  · rw [Effect.bind_apply_of_error hopen]
    exact .of_beside ((Os.beside_pop path os).trans (Os.beside_fail path _)) (.inl rfl)

end Lsm

/-! ## Whole steps -/

section

variable [Lz4] [BloomSizing]

open Lsm

omit [Lz4] [BloomSizing] in
theorem SurvivalRun.keeps_planned (r : SurvivalRun) (plan : List Answer) :
    Keeps r.sys (r.planned plan) := ⟨rfl, fun _ _ ↦ rfl, fun _ _ ↦ rfl, fun _ ↦ id, le_rfl, id⟩

/-- **Every step of the engine** keeps to its files. -/
theorem SurvivalRun.Inv.keeps {r r' : SurvivalRun} {a : SurvivalStep} (h : r.Inv)
    (hs : r.step a = some r') : Keeps r.sys r'.sys := by
  have hplace : AtPlace false r.sys r.committed r.pc := h
  cases a with
  | commit pending plan =>
    have happend : Keeps (r.planned plan) (appendRecord pending (r.planned plan)).2 :=
      ⟨rfl, .of_touches (appendRecord_touches pending (r.planned plan)).2 (.inl rfl)⟩
    have hkeeps := (r.keeps_planned plan).trans happend
    rw [SurvivalRun.step] at hs
    split at hs
    next =>
      split at hs
      next =>
        obtain rfl := Option.some.inj hs
        exact .rfl' _
      next =>
        split at hs
        next sys hrun =>
          obtain rfl := Option.some.inj hs
          rw [hrun] at hkeeps
          exact hkeeps
        next e sys hrun =>
          obtain rfl := Option.some.inj hs
          rw [hrun] at hkeeps
          exact hkeeps
    next => cases hs
  | forceCompact =>
    rw [SurvivalRun.step] at hs
    split at hs
    next =>
      obtain rfl := Option.some.inj hs
      exact .rfl' _
    next => cases hs
  | advance plan =>
    have hkeeps := (r.keeps_planned plan).trans
      (keeps_advance (AtPlace.elsewhere hplace (elsewhere_withPlan r.sys plan)).namesFresh)
    rw [SurvivalRun.step] at hs
    split at hs
    next pc sys hrun =>
      obtain rfl := Option.some.inj hs
      change Keeps r.sys (Lsm.advance r.pc (r.planned plan)).2 at hkeeps
      rw [hrun] at hkeeps
      exact hkeeps
    next e sys hrun =>
      obtain rfl := Option.some.inj hs
      change Keeps r.sys (Lsm.advance r.pc (r.planned plan)).2 at hkeeps
      rw [hrun] at hkeeps
      exact hkeeps
  | kill options =>
    obtain ⟨i, v, hplaced, hcontents, hdenotes⟩ := hplace.image
    obtain ⟨b, os', hopen, -, hpath, hrest⟩ := @openWithOptions_placed _ (r.sys.os.withPlan [])
      r.sys.backend.path i v _ rfl ((elsewhere_withPlan r.sys []).placed hplaced) hcontents hdenotes
      options
    have hwithin := within_openWithOptions r.sys.backend.path options
      r.sys.backend.container.file (r.sys.os.withPlan [])
    rw [hopen] at hwithin
    rw [SurvivalRun.step, hopen] at hs
    obtain rfl := Option.some.inj hs
    refine (r.keeps_planned []).trans ⟨hpath, hwithin.trans (.hold (.inl rfl) ?_)⟩
    cases hrest with
    | intact v h _ =>
      have hnamed := h.disk.placed.named
      rw [hpath] at hnamed
      exact hnamed
    | detached htidy _ => cases htidy

end
