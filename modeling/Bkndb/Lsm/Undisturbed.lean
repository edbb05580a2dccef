import Bkndb.Lsm.Sections

/-!
# Sections when no call fails

When no call of the operating system fails, a section can still be refused: a block of a table does
not fit its length, or a counter has run out. A section that is not refused goes through, and the
engine stays tidy.

A refusal is an error that the engine itself raises, before or after it has written something.
`Unrefused` names the reasons at each place, as conditions on the state: the lengths of blocks
against four bytes, and the counters against 64 bits.

`AtPlace.progress` is the result: with no failing call and no reason to refuse, a section goes
through, so an operation that is begun comes to its end.
-/

open Container Layers

namespace Sst

variable [Lz4] [BloomSizing]

/-- A write that fails was refused, or a call has failed. -/
theorem failsBy_write (i generation n : ℕ) (entries : List (Except BknError SstEntry))
    (opts : WriteOptions) :
    Os.FailsBy (¬Accepts opts entries n) (write i generation entries n opts) :=
  fun _ _ _ h ↦ (write_eq_error h).2

end Sst

namespace Container

theorem failsBy_writeBlobAt {Q : Prop} (i offset : ℕ) (b : Bytes) :
    Os.FailsBy Q (writeBlobAt i offset b) :=
  (Os.failsBy_call _).bind fun _ ↦ Os.failsBy_writeWith _ _ _ _ _

theorem failsBy_writeHeader (i prevSeq prevSlot offset : ℕ) (m : Manifest) :
    Os.FailsBy (2 ^ 64 ≤ prevSeq + 1) (writeHeader i prevSeq prevSlot offset m.encode) := by
  intro os e os' h
  obtain ⟨⟨⟩, -⟩ | ⟨_, _, -, -, -, hfailed⟩ | ⟨_, -, hseq, -⟩ := writeHeader_cases h
  · exact .inl hfailed
  · exact .inr hseq

end Container

namespace Lsm

variable [Lz4] [BloomSizing]

omit [Lz4] [BloomSizing] in
theorem checkedAdd_eq_error {a b : ℕ} {e : BknError} (h : checkedAdd a b = .error e) :
    2 ^ 64 ≤ a + b := by
  rw [checkedAdd] at h
  split at h
  next => cases h
  next hlt => exact not_lt.mp hlt

/-- A fresh container is written, unless the format refuses its table or there is no next
generation. -/
theorem failsBy_writeFreshContainer (path : String) (generation n : ℕ)
    (entries : List (Except BknError (Bytes × Bytes))) (opts : Sst.WriteOptions) :
    Os.FailsBy (¬(Sst.Accepts opts (entries.map fun r ↦ r.map fun e ↦ (e.1, .value e.2)) n ∧
        generation + 1 < 2 ^ 64))
      (writeFreshContainer path generation entries n opts) := by
  have hcleanup : ∀ os : Os, os.failed = true →
      (Os.removeFile (ε := BknError) ioErr path os).2.failed = true := fun os hos ↦
    (Os.beside_removeFile ioErr path os).failed hos
  rw [writeFreshContainer]
  refine Os.FailsBy.onError ?_ hcleanup
  refine (Os.failsBy_createFile _ _).bind fun i ↦ (Os.failsBy_setLen _ _ _).bind fun _ ↦ ?_
  refine Os.FailsBy.bind (fun os e os' h ↦ ?_) fun handle ↦ ?_
  · exact (Sst.failsBy_write i generation n _ opts os e os' h).imp_right fun h h' ↦ h h'.1
  refine Os.FailsBy.bind (Os.failsBy_ofExcept fun e h ↦ ?_) fun next ↦ ?_
  · exact fun h' ↦ absurd (checkedAdd_eq_error h) (not_le.mpr h'.2)
  refine (Container.failsBy_writeBlobAt _ _ _).bind fun _ ↦ (Os.failsBy_sync _ _).bind fun _ ↦ ?_
  refine Os.FailsBy.bind (fun os e os' h ↦ ?_) fun _ ↦ ?_
  · refine (Container.failsBy_writeHeader i 0 1 _ _ os e os' h).imp_right fun h ↦ ?_
    exact absurd h (by norm_num)
  · exact (Os.failsBy_sync _ _).bind fun _ ↦ Os.failsBy_pure _

/-- The format takes the merge of the tables. -/
def MergeAccepts (b : LsmStorageBackend) (sstables : List SstableHandle) : Prop :=
  Sst.Accepts (writeOptions b.options)
    ((MergeIter.merged (sstables.reverse.map fun h ↦ h.cursor .unbounded .unbounded)).map fun r ↦
      r.map fun e ↦ (e.1, .value e.2))
    ((sstables.map SstableHandle.estimatedEntries).sum % 2 ^ 64)

instance (b : LsmStorageBackend) (sstables : List SstableHandle) :
    Decidable (MergeAccepts b sstables) := inferInstanceAs (Decidable (Sst.Accepts _ _ _))

theorem failsBy_writeMerged (b : LsmStorageBackend) (sstables : List SstableHandle)
    (generation : ℕ) : Os.FailsBy (¬(MergeAccepts b sstables ∧ generation + 1 < 2 ^ 64))
      (writeMerged b.path (writeOptions b.options) sstables generation) :=
  (failsBy_writeFreshContainer _ _ _ _ _).bind fun _ ↦ (Os.failsBy_call _).bind fun _ ↦
    (Os.failsBy_rename _ _ _).bind fun _ ↦ Os.failsBy_pure _

theorem quiet_writeMerged (path : String) (opts : Sst.WriteOptions) (sstables : List SstableHandle)
    (generation : ℕ) {os : Os} (hq : os.Quiet) :
    (writeMerged path opts sstables generation os).2.Quiet := by
  rw [writeMerged]
  set entries := MergeIter.merged (sstables.reverse.map fun h ↦ h.cursor .unbounded .unbounded)
  set n := (sstables.map SstableHandle.estimatedEntries).sum % 2 ^ 64
  have hbeside := beside_writeFreshContainer (compactionTmpPath path) generation entries n opts os
  rcases hfresh : writeFreshContainer (compactionTmpPath path) generation entries n opts os with
    ⟨e | fresh, os₁⟩
  · rw [hfresh] at hbeside
    rw [Effect.bind_apply_of_error hfresh]
    exact hbeside.quiet hq
  · rw [hfresh] at hbeside
    have hq₁ : os₁.Quiet := hbeside.quiet hq
    rw [Effect.bind_apply_of_ok hfresh, Effect.bind_apply_of_ok (hq₁.call _),
      Effect.bind_apply_of_ok (hq₁.rename ..)]
    exact hq₁

omit [Lz4] [BloomSizing] in
theorem failsBy_syncParentDir : Os.FailsBy False syncParentDir :=
  (Os.failsBy_call _).bind fun _ ↦ Os.failsBy_call _

/-! ## Going through -/

/-- The section is not refused: the format takes the table that it writes, and there is a next
number. -/
def Unrefused (s : LsmSystem) : WriterPc → Prop
  | .flushing _ =>
    s.backend.state.activeMemtable = ∅ ∨ s.backend.state.nextSstableId + 1 < 2 ^ 64
  | .setAside _ memtable _ =>
    FlushAccepts s.backend memtable ∧ s.backend.container.headerSeq + 1 < 2 ^ 64
  | .picked _ _ => s.backend.state.nextSstableId + 1 < 2 ^ 64
  | .reserved _ sstables generation => MergeAccepts s.backend sstables ∧ generation + 1 < 2 ^ 64
  | _ => True

instance (s : LsmSystem) : (pc : WriterPc) → Decidable (Unrefused s pc)
  | .flushing _ => inferInstanceAs (Decidable (_ ∨ _))
  | .setAside .. | .reserved .. => inferInstanceAs (Decidable (_ ∧ _))
  | .picked .. => inferInstanceAs (Decidable (_ < _))
  | .idle | .logged _ | .written .. | .compacting .. | .renamed .. | .durable .. | .switched .. =>
    .isTrue trivial

variable {s : LsmSystem} {D : OrdMap Bytes Bytes}

theorem AtPlace.quiet_advance {pc : WriterPc} (h : AtPlace true s D pc) (hq : s.os.Quiet) :
    (Lsm.advance pc s).2.os.Quiet := by
  cases pc with
  | idle => exact hq
  | logged pending =>
    rw [Lsm.advance, applyPending, bind_assoc, Effect.bind_apply_of_ok (modifyState_apply ..),
      bind_assoc, Effect.bind_apply_of_ok (Effect.get_apply _), pure_bind]
    split <;> exact hq
  | flushing rest =>
    rw [Lsm.advance, beginFlush, bind_assoc, Effect.bind_apply_of_ok (Effect.get_apply s)]
    dsimp only
    split
    · exact hq
    · rw [bind_assoc, Effect.bind_apply_of_ok (modifyState_apply ..)]
      cases checkedAdd s.backend.state.nextSstableId 1 <;> exact hq
  | setAside rest memtable generation =>
    obtain ⟨v, hflushing, -⟩ := h
    rcases hwrite : writeFlush memtable generation s with ⟨e | out, s'⟩
    · rw [Lsm.advance, Effect.bind_apply_of_error hwrite]
      exact (writeFlush_cases hflushing hwrite).1.quiet hq
    · rw [Lsm.advance, Effect.bind_apply_of_ok hwrite]
      exact (writeFlush_cases hflushing hwrite).1.quiet hq
  | written rest generation handle manifest =>
    rw [Lsm.advance, publishFlush, bind_assoc, Effect.bind_apply_of_ok (modifyState_apply ..),
      bind_assoc, Effect.bind_apply_of_ok (Effect.get_apply _), pure_bind]
    split <;> exact hq
  | compacting force rest =>
    rw [Lsm.advance, pickSstables, bind_assoc, Effect.bind_apply_of_ok (Effect.get_apply s)]
    dsimp only
    split <;> exact hq
  | picked rest sstables =>
    rw [Lsm.advance, reserveGeneration, bind_assoc, Effect.bind_apply_of_ok (Effect.get_apply s)]
    dsimp only
    cases checkedAdd s.backend.state.nextSstableId 1 <;> exact hq
  | reserved rest sstables generation =>
    have hwrite := quiet_writeMerged s.backend.path (writeOptions s.backend.options) sstables
      generation hq
    rw [Lsm.advance, Effect.bind_apply_of_ok (Effect.get_apply s)]
    rcases hrun : writeMerged s.backend.path (writeOptions s.backend.options) sstables generation
      s.os with ⟨e | fresh, os'⟩
    · rw [hrun] at hwrite
      rw [bind_io_of_error hrun]
      exact hwrite
    · rw [hrun] at hwrite
      rw [bind_io_of_ok hrun]
      exact hwrite
  | renamed rest fresh =>
    have hsync : syncParentDir s.os = (.ok (), s.os) := by
      rw [syncParentDir, Effect.bind_apply_of_ok (hq.call _), hq.call]
    rw [Lsm.advance, bind_io_of_ok hsync]
    exact hq
  | durable rest fresh => exact hq
  | switched rest fresh => exact hq

theorem leads_setAside_of_unrefused {tidy : Bool} {rest : List Bool} {memtable : Memtable}
    {generation : ℕ} (h : AtPlace tidy s D (.setAside rest memtable generation))
    (hun : Unrefused s (.setAside rest memtable generation))
    (hok : (Lsm.advance (.setAside rest memtable generation) s).2.os.failed = false) :
    ∃ pc', (Lsm.advance (.setAside rest memtable generation) s).1 = .ok pc' ∧
      AtPlace tidy (Lsm.advance (.setAside rest memtable generation) s).2 D pc' := by
  rw [Lsm.advance] at hok ⊢
  rcases hwrite : writeFlush memtable generation s with ⟨e | ⟨handle, manifest⟩, s'⟩
  · rw [Effect.bind_apply_of_error hwrite] at hok
    obtain ⟨v, hflushing, -⟩ := h
    have hseq := hun.2
    rw [hflushing.books.seq] at hseq
    obtain ⟨-, ⟨_, _, _, ⟨⟩, -⟩ | ⟨_, _, -, -, -, hfailed | hrefused | hle⟩ |
      ⟨_, _, -, -, -, -, hfailed, -⟩⟩ := writeFlush_cases hflushing hwrite
    · exact absurd hok (by rw [hfailed]; decide)
    · exact absurd hun.1 hrefused
    · exact absurd hseq (not_lt.mpr hle)
    · exact absurd hok (by rw [hfailed]; decide)
  · rw [Effect.bind_apply_of_ok hwrite]
    exact ⟨_, rfl, atPlace_written h hwrite⟩

omit [Lz4] [BloomSizing] in
theorem checkedAdd_of_lt {a b : ℕ} (h : a + b < 2 ^ 64) : checkedAdd a b = .ok (a + b) := if_pos h

theorem AtPlace.ne_error_advance {tidy : Bool} {pc : WriterPc} (h : AtPlace tidy s D pc)
    (hun : Unrefused s pc) (hok : (Lsm.advance pc s).2.os.failed = false) (e : BknError) :
    (Lsm.advance pc s).1 ≠ .error e := by
  cases pc with
  | idle => exact Except.ok_ne_error _ e
  | logged pending =>
    rw [Lsm.advance, applyPending, bind_assoc, Effect.bind_apply_of_ok (modifyState_apply ..),
      bind_assoc, Effect.bind_apply_of_ok (Effect.get_apply _), pure_bind]
    split <;> exact Except.ok_ne_error _ e
  | flushing rest =>
    by_cases hempty : s.backend.state.activeMemtable = ∅
    · rw [Lsm.advance, Effect.bind_apply_of_ok (beginFlush_of_empty hempty)]
      exact Except.ok_ne_error _ e
    · rw [Lsm.advance, beginFlush, bind_assoc, Effect.bind_apply_of_ok (Effect.get_apply s)]
      dsimp only
      rw [if_neg fun h ↦ hempty (OrdMap.isEmpty_iff.mp h), bind_assoc,
        Effect.bind_apply_of_ok (modifyState_apply ..), checkedAdd_of_lt (hun.resolve_left hempty)]
      exact Except.ok_ne_error _ e
  | setAside rest memtable generation =>
    obtain ⟨pc', hpc', -⟩ := leads_setAside_of_unrefused h hun hok
    rw [hpc']
    exact Except.ok_ne_error _ e
  | written rest generation handle manifest =>
    rw [Lsm.advance, publishFlush, bind_assoc, Effect.bind_apply_of_ok (modifyState_apply ..),
      bind_assoc, Effect.bind_apply_of_ok (Effect.get_apply _), pure_bind]
    split <;> exact Except.ok_ne_error _ e
  | compacting force rest =>
    rw [Lsm.advance, pickSstables, bind_assoc, Effect.bind_apply_of_ok (Effect.get_apply s)]
    dsimp only
    split <;> exact Except.ok_ne_error _ e
  | picked rest sstables =>
    rw [Lsm.advance, reserveGeneration, bind_assoc, Effect.bind_apply_of_ok (Effect.get_apply s)]
    dsimp only
    rw [checkedAdd_of_lt hun]
    exact Except.ok_ne_error _ e
  | reserved rest sstables generation =>
    rw [Lsm.advance, Effect.bind_apply_of_ok (Effect.get_apply s)] at hok ⊢
    rcases hrun : writeMerged s.backend.path (writeOptions s.backend.options) sstables generation
      s.os with ⟨e | fresh, os'⟩
    · rw [bind_io_of_error hrun] at hok
      rcases failsBy_writeMerged s.backend sstables generation s.os e os' hrun with hfailed | hnot
      · exact absurd hok (by rw [hfailed]; decide)
      · exact absurd hun hnot
    · rw [bind_io_of_ok hrun]
      exact Except.ok_ne_error _ e
  | renamed rest fresh =>
    rw [Lsm.advance] at hok ⊢
    rcases hsync : syncParentDir s.os with ⟨e' | u, os'⟩
    · rw [bind_io_of_error hsync] at hok
      rcases failsBy_syncParentDir s.os e' os' hsync with hfailed | hfalse
      · exact absurd hok (by rw [hfailed]; decide)
      · exact hfalse.elim
    · rw [bind_io_of_ok hsync]
      exact Except.ok_ne_error _ e
  | durable rest fresh => exact Except.ok_ne_error _ e
  | switched rest fresh => exact Except.ok_ne_error _ e

/-- **A section that is not refused goes through** when no call fails. -/
theorem AtPlace.progress {pc : WriterPc} (h : AtPlace true s D pc) (hq : s.os.Quiet)
    (hun : Unrefused s pc) (hok : (Lsm.advance pc s).2.os.failed = false) :
    ∃ pc', (Lsm.advance pc s).1 = .ok pc' ∧
      AtPlace true (Lsm.advance pc s).2 (mapAfter D pc) pc' := by
  have hgoes : Leads true D (mapAfter D pc) (Lsm.advance pc s) →
      ∃ pc', (Lsm.advance pc s).1 = .ok pc' ∧
        AtPlace true (Lsm.advance pc s).2 (mapAfter D pc) pc' := fun hleads ↦ by
    rcases hleads with hgoes | ⟨e, herror, -⟩
    · exact hgoes
    · exact absurd herror (h.ne_error_advance hun hok e)
  cases pc with
  | setAside rest memtable generation => exact leads_setAside_of_unrefused h hun hok
  | flushing rest => exact hgoes (h.advance (h.admits hq hun) fun _ ↦ ⟨hq, hun⟩)
  | _ => exact hgoes (h.advance (h.admits hq trivial) fun _ ↦ ⟨hq, trivial⟩)

omit [BloomSizing] in
/-- **An append** of a tidy engine puts the batch into the log; or the record is too large, and
nothing changes. -/
theorem AtRest.append_undisturbed (h : AtRest true s D) (hq : s.os.Quiet) {pending : Pending}
    {r : Except BknError Unit} {s' : LsmSystem} (hrun : appendRecord pending s = (r, s'))
    (hok : s'.os.failed = false) : s'.os.Quiet ∧
      ((r = .ok () ∧ AtPlace true s' D (.logged pending)) ∨
        ∃ e, r = .error e ∧ s' = s ∧ ¬(⟨pending.entries⟩ : WalRecord).Fits) := by
  obtain ⟨-, htouches⟩ := appendRecord_touches pending s
  rw [hrun] at htouches
  refine ⟨htouches.quiet hq, ?_⟩
  obtain ⟨v, hintact, hclean, htidy⟩ := h.intact_of_appendable h.appendable
  cases r with
  | ok u =>
    obtain ⟨hlogged, hbackend, -⟩ := appendRecord_ok hintact hclean hrun
    refine .inl ⟨rfl, v, hlogged, hclean, fun ht ↦ ?_⟩
    rw [hbackend]
    exact (htidy ht).immutables
  | error e =>
    right
    rw [appendRecord_apply] at hrun
    obtain ⟨hresult, rfl⟩ := Prod.mk.inj hrun
    have happend : Wal.append s.backend.container.file ⟨pending.entries⟩ s.os =
        (.error e, (Wal.append s.backend.container.file ⟨pending.entries⟩ s.os).2) :=
      Prod.ext hresult rfl
    rcases Wal.append_eq_error happend with ⟨hfits, hos⟩ | ⟨-, hfailed, -⟩
    · exact ⟨e, rfl, by rw [hos], hfits⟩
    · exact absurd hok (by rw [hfailed]; decide)

end Lsm
