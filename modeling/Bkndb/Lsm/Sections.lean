import Bkndb.Lsm.Fresh
import Bkndb.Lsm.Leftover

/-!
# The sections of the writer and the file

At every place between two sections what is in memory and what is in the file at the path stand for
the same map, with one exception: the commit whose record is in the log and not yet in the memtable.
`AtPlace` says what else holds at each place, and a section leads from one place to the next.

Sections may fail. As long as none does, the engine stays tidy: no memtable is left set aside, and the
log reaches to the end of the file. Untidiness does no harm by itself, but it has to be kept out of
the way of what comes next, which is what `Admits` asks for.

## Places

`AtPlace` has a case for each place of the writer: at rest, with a record in the log, and after
each section of a flush and of a merge. In each the file at the path stands for the map; what
differs is where the engine's own copy of the entries is.

## Tidiness

The flag tells whether something is left over from a failed step. `AtRest` admits a memtable that
stayed set aside, bytes behind the log, and an engine whose file has lost its name to a merge that
was given up late. `Admits` says for each section what must not be left over when it runs.

## Main results

* `AtPlace.advance`: what a section does at any place, whether or not calls fail.
* `AtPlace.admits`: a tidy engine leaves nothing in the way.
* `AtRest.append_cases`: what an append does.
-/

open Container Layers

/-- A container keeps its place beside what happens to the temporary file. -/
theorem Placed.beside {os os' : Os} {path : String} {i : ℕ} (h : Placed os path i)
    (hb : os.Beside (Lsm.compactionTmpPath path) os') : Placed os' path i where
  named := by rw [hb.names path (compactionTmpPath_ne path).symm, h.named]
  lt_next := h.lt_next.trans_le hb.next
  apart j hj := by
    rcases hb.named j hj with hj | ⟨hle, hlt⟩
    · obtain ⟨hne, hlt⟩ := h.apart j hj
      exact ⟨hne, hlt.trans_le hb.next⟩
    · have hi := h.lt_next
      exact ⟨by omega, hlt⟩

/-- A file that a compaction would not write to. -/
structure Held (os : Os) (path : String) (i : ℕ) : Prop where
  lt_next : i < os.next
  apart : os.names (Lsm.compactionTmpPath path) ≠ some i

theorem Placed.held {os : Os} {path : String} {i : ℕ} (h : Placed os path i) : Held os path i :=
  ⟨h.lt_next, fun hi ↦ (h.apart i hi).1 rfl⟩

theorem Held.beside {os os' : Os} {path : String} {i : ℕ} (h : Held os path i)
    (hb : os.Beside (Lsm.compactionTmpPath path) os') : Held os' path i where
  lt_next := h.lt_next.trans_le hb.next
  apart hi := by
    have hlt := h.lt_next
    rcases hb.named i hi with hi | ⟨hle, -⟩
    · exact h.apart hi
    · omega

theorem Held.contents {os os' : Os} {path : String} {i : ℕ} (h : Held os path i)
    (hb : os.Beside (Lsm.compactionTmpPath path) os') : os'.contents i = os.contents i :=
  hb.contents h.lt_next h.apart

namespace Lsm

variable [Lz4] [BloomSizing]

/-- The file at the path is not the engine's any more: a compaction was given up when the new file
had the name already. -/
structure Detached (s : LsmSystem) (D : OrdMap Bytes Bytes) : Prop where
  image : ∃ (i : ℕ) (v : Image), i ≠ s.backend.container.file ∧ Placed s.os s.backend.path i ∧
    s.os.contents i = v.file ∧ v.Denotes D
  held : Held s.os s.backend.path s.backend.container.file
  live : SnapshotDenotes (snapshot s.backend) D
  active : s.backend.state.activeMemtable = ∅
  immutables : s.backend.state.immutableMemtables = []

/-- **The system when nothing is under way.** A tidy one has nothing left over from a failed step. -/
inductive AtRest (tidy : Bool) (s : LsmSystem) (D : OrdMap Bytes Bytes) : Prop
  | intact (v : Image) (h : Intact s v D) (htidy : tidy = true → Settled s v)
  | detached (htidy : tidy = false) (h : Detached s D)

omit [BloomSizing] in
theorem AtRest.live {tidy : Bool} {s : LsmSystem} {D : OrdMap Bytes Bytes} (h : AtRest tidy s D) :
    SnapshotDenotes (snapshot s.backend) D := by
  cases h with
  | intact v h htidy => exact h.memory.live
  | detached htidy h => exact h.live

omit [BloomSizing] in
theorem AtRest.image {tidy : Bool} {s : LsmSystem} {D : OrdMap Bytes Bytes} (h : AtRest tidy s D) :
    ∃ (i : ℕ) (v : Image), Placed s.os s.backend.path i ∧ s.os.contents i = v.file ∧
      v.Denotes D := by
  cases h with
  | intact v h htidy => exact ⟨_, v, h.disk.placed, h.disk.contents, h.memory.stored⟩
  | detached htidy h =>
    obtain ⟨i, v, -, hplaced, hcontents, hstored⟩ := h.image
    exact ⟨i, v, hplaced, hcontents, hstored⟩

omit [BloomSizing] in
theorem AtRest.held {tidy : Bool} {s : LsmSystem} {D : OrdMap Bytes Bytes} (h : AtRest tidy s D) :
    Held s.os s.backend.path s.backend.container.file := by
  cases h with
  | intact v h htidy => exact h.disk.placed.held
  | detached htidy h => exact h.held

omit [BloomSizing] in
theorem AtRest.beside {tidy : Bool} {s : LsmSystem} {D : OrdMap Bytes Bytes} (h : AtRest tidy s D)
    {os' : Os} (hb : s.os.Beside (compactionTmpPath s.backend.path) os') :
    AtRest tidy { s with os := os' } D := by
  cases h with
  | intact v h htidy =>
    have hplaced := h.disk.placed
    refine .intact v ⟨⟨?_, hplaced.beside hb⟩, h.memory⟩ fun ht ↦ ?_
    · exact (hplaced.held.contents hb).trans h.disk.contents
    · exact ⟨(htidy ht).immutables, (htidy ht).clean⟩
  | detached htidy h =>
    obtain ⟨i, v, hne, hplaced, hcontents, hstored⟩ := h.image
    exact .detached htidy ⟨⟨i, v, hne, hplaced.beside hb,
      (hplaced.held.contents hb).trans hcontents, hstored⟩, h.held.beside hb, h.live, h.active,
      h.immutables⟩

omit [BloomSizing] in
theorem AtRest.reserve {tidy : Bool} {s : LsmSystem} {D : OrdMap Bytes Bytes} (h : AtRest tidy s D)
    (next : ℕ) (hle : s.backend.state.nextSstableId ≤ next) :
    AtRest tidy { s with backend := { s.backend with
      state := { s.backend.state with nextSstableId := next } } } D := by
  cases h with
  | intact v h htidy =>
    refine .intact v ⟨⟨h.disk.contents, h.disk.placed⟩, h.memory.stored, h.memory.live,
      h.memory.active, fun himm ↦ ?_⟩ fun ht ↦ ⟨(htidy ht).immutables, (htidy ht).clean⟩
    obtain ⟨hseq, hslot, hholds, hrefs, hstart, hnext⟩ := h.memory.books himm
    exact ⟨hseq, hslot, hholds, hrefs, hstart, hnext.trans hle⟩
  | detached htidy h =>
    exact .detached htidy ⟨h.image, h.held, h.live, h.active, h.immutables⟩

/-- All entries are in SSTables. -/
structure Flushed (tidy : Bool) (s : LsmSystem) (D : OrdMap Bytes Bytes) : Prop where
  rest : AtRest tidy s D
  active : s.backend.state.activeMemtable = ∅

/-- All entries are in the SSTables that are to be merged. -/
structure Mergeable (tidy : Bool) (s : LsmSystem) (D : OrdMap Bytes Bytes)
    (sstables : List SstableHandle) : Prop extends Flushed tidy s D where
  immutables : s.backend.state.immutableMemtables = []
  sstables : sstables = s.backend.state.sstables

/-- The merged container has the name. -/
structure Merged (s : LsmSystem) (fresh : FreshContainer) (D : OrdMap Bytes Bytes) : Prop where
  image : ∃ v, FreshImage s.os fresh v D
  placed : Placed s.os s.backend.path fresh.file
  live : SnapshotDenotes (snapshot s.backend) D
  active : s.backend.state.activeMemtable = ∅
  immutables : s.backend.state.immutableMemtables = []

/-- The merged container has the name, and the engine still has the old one. -/
structure Renamed (s : LsmSystem) (fresh : FreshContainer) (D : OrdMap Bytes Bytes) : Prop
    extends Merged s fresh D where
  apart : fresh.file ≠ s.backend.container.file
  held : Held s.os s.backend.path s.backend.container.file

/-- What holds at a place. -/
def AtPlace (tidy : Bool) (s : LsmSystem) (D : OrdMap Bytes Bytes) : WriterPc → Prop
  | .idle | .flushing _ => AtRest tidy s D
  | .logged pending => ∃ v, Logged s v pending D ∧ v.Clean ∧
      (tidy = true → s.backend.state.immutableMemtables = [])
  | .setAside _ memtable generation => ∃ v, Flushing s v D memtable generation ∧
      (tidy = true → v.Clean)
  | .written _ generation handle manifest => ∃ v, Written s v D generation handle manifest
  | .compacting _ _ => Flushed tidy s D
  | .picked _ sstables | .reserved _ sstables _ => Mergeable tidy s D sstables
  | .renamed _ fresh | .durable _ fresh => Renamed s fresh D
  | .switched _ fresh => Merged s fresh D ∧ s.backend.container = ⟨fresh.file, 1, 0⟩

omit [BloomSizing] in
theorem Flushed.atPlace_compactions {tidy : Bool} {s : LsmSystem} {D : OrdMap Bytes Bytes}
    (h : Flushed tidy s D) (rest : List Bool) : AtPlace tidy s D (.compactions rest) := by
  cases rest with
  | nil => exact h.rest
  | cons force rest => exact h

/-! ## Merging

A merge writes to the temporary name, so nothing of the database changes until the rename. After
the rename and before the switch the path and the engine's container are two files with the same
contents. -/

omit [BloomSizing] in
/-- The merge of the SSTables stands for the map. -/
theorem Mergeable.merged {tidy : Bool} {s : LsmSystem} {D : OrdMap Bytes Bytes}
    {sstables : List SstableHandle} (h : Mergeable tidy s D sstables) :
    MergeIter.merged (sstables.reverse.map fun h ↦ h.cursor .unbounded .unbounded) =
      D.entries.map .ok := by
  obtain rfl := h.sstables
  obtain ⟨tables, htables, hdenotes⟩ := h.rest.live
  obtain ⟨E, hmerged, hlive⟩ := merged_cursors htables
  rw [layers, snapshot, h.active, h.immutables] at hdenotes
  refine hmerged.trans ?_
  rw [(denotes_nil_cons.mp hdenotes).unique hlive]

/-- **Writing the merge.** Either a container that stands for the map has taken over the name, or
only the temporary file has changed. -/
theorem Mergeable.writeMerged_cases {tidy : Bool} {s : LsmSystem} {D : OrdMap Bytes Bytes}
    {sstables : List SstableHandle} (h : Mergeable tidy s D sstables) {opts : Sst.WriteOptions}
    {generation : ℕ} {os' : Os} {r : Except BknError FreshContainer}
    (hrun : writeMerged s.backend.path opts sstables generation s.os = (r, os')) :
    (∃ fresh, r = .ok fresh ∧ Renamed { s with os := os' } fresh D) ∨
      ∃ e, r = .error e ∧ s.os.Beside (compactionTmpPath s.backend.path) os' := by
  set tmp := compactionTmpPath s.backend.path with htmp
  obtain ⟨_, _, hplaced, -⟩ := h.rest.image
  have hheld := h.rest.held
  rw [writeMerged, h.merged] at hrun
  set n := (sstables.map SstableHandle.estimatedEntries).sum % 2 ^ 64
  have hbeside := beside_writeFreshContainer tmp generation (D.entries.map .ok) n opts s.os
  rcases hfresh : writeFreshContainer tmp generation (D.entries.map .ok) n opts s.os with
    ⟨e | fresh, os₁⟩
  · rw [hfresh] at hbeside
    rw [Effect.bind_apply_of_error hfresh] at hrun
    cases hrun
    exact .inr ⟨e, rfl, hbeside⟩
  rw [hfresh] at hbeside
  rw [Effect.bind_apply_of_ok hfresh] at hrun
  obtain ⟨v', himage, -, -, hname, hknown⟩ := writeFreshContainer_image hfresh
  have hother : fresh.file ≠ s.backend.container.file ∧ fresh.file < os₁.next := by
    rcases hknown with hknown | ⟨-, hfile, hlt⟩
    · exact ⟨fun heq ↦ hheld.apart (heq ▸ hknown), (hplaced.apart _ hknown).2.trans_le hbeside.next⟩
    · have hi := hheld.lt_next
      exact ⟨by omega, hlt⟩
  rcases Os.call_cases (BknError.databaseLocked s.backend.path) os₁ with ⟨hcall, -⟩ | ⟨hcall, -⟩
  · rw [Effect.bind_apply_of_ok hcall] at hrun
    cases hanswer : os₁.pop.answer with
    | done =>
      have hrename : Os.rename ioErr tmp s.backend.path os₁.pop = (.ok (), { os₁.pop.pop with
          names := Function.update (Function.update os₁.names s.backend.path (os₁.names tmp))
            tmp none }) := by
        rw [Os.rename, hanswer]
        rfl
      rw [Effect.bind_apply_of_ok hrename] at hrun
      cases hrun
      refine .inl ⟨fresh, rfl, ⟨⟨v', { himage with }⟩, ⟨?_, hother.2, fun j hj ↦ ?_⟩, h.rest.live,
        h.active, h.immutables⟩, hother.1, hheld.lt_next.trans_le hbeside.next, fun hi ↦ ?_⟩
      · change Function.update (Function.update os₁.names _ _) _ _ _ = _
        rw [Function.update_of_ne (compactionTmpPath_ne _).symm, Function.update_self, hname]
      · change Function.update (Function.update os₁.names _ _) _ _ _ = _ at hj
        rw [Function.update_self] at hj
        cases hj
      · change Function.update (Function.update os₁.names _ _) _ _ _ = _ at hi
        rw [Function.update_self] at hi
        cases hi
    | fail k =>
      have hrename : Os.rename ioErr tmp s.backend.path os₁.pop =
          (.error ioErr, os₁.pop.pop.fail) := by rw [Os.rename, hanswer]
      rw [Effect.bind_apply_of_error hrename] at hrun
      cases hrun
      exact .inr ⟨_, rfl, ((hbeside.trans (Os.beside_pop ..)).trans (Os.beside_pop ..)).trans
        (Os.beside_fail ..)⟩
  · rw [Effect.bind_apply_of_error hcall] at hrun
    cases hrun
    exact .inr ⟨_, rfl, (hbeside.trans (Os.beside_pop ..)).trans (Os.beside_fail ..)⟩

/-! ## From place to place

One lemma for each section, all of the same form: `Leads` says that the section ends at its next
place, with the map that has to hold there, or fails and is over. -/

/-- Nothing left over is in the way of a section, and what it may leave itself is not mistaken for
something else. -/
def Admits (s : LsmSystem) : WriterPc → Prop
  | .flushing _ => s.backend.state.activeMemtable = ∅ ∨ s.backend.state.immutableMemtables = []
  | .setAside _ memtable generation =>
    (s.os.Quiet ∧ FlushFits s memtable generation) ∨
      Unmistakable s.backend (s.os.contents s.backend.container.file) s.os.plan memtable generation
  | .compacting force _ =>
    (2 ≤ s.backend.state.sstables.length ∨ (force ∧ s.backend.state.sstables ≠ [])) →
      s.backend.state.immutableMemtables = []
  | _ => True

instance (s : LsmSystem) : (pc : WriterPc) → Decidable (Admits s pc)
  | .flushing _ | .setAside .. => inferInstanceAs (Decidable (_ ∨ _))
  | .compacting .. => inferInstanceAs (Decidable (_ → _))
  | .idle | .logged _ | .written .. | .picked .. | .reserved .. | .renamed .. | .durable .. |
    .switched .. => .isTrue trivial

/-- A section goes through. -/
def Clear (s : LsmSystem) : WriterPc → Prop
  | .flushing _ =>
    s.backend.state.activeMemtable = ∅ ∨ s.backend.state.nextSstableId + 1 < 2 ^ 64
  | .setAside _ memtable generation => FlushFits s memtable generation
  | _ => True

/-- A tidy engine leaves nothing in the way. -/
theorem AtPlace.admits {s : LsmSystem} {D : OrdMap Bytes Bytes} {pc : WriterPc}
    (h : AtPlace true s D pc) (hq : s.os.Quiet) (hclear : Clear s pc) : Admits s pc := by
  have himm : ∀ {D}, AtRest true s D → s.backend.state.immutableMemtables = [] := by
    intro D h
    cases h with
    | intact v h htidy => exact (htidy rfl).immutables
    | detached htidy h => exact h.immutables
  cases pc with
  | flushing rest => exact .inr (himm h)
  | setAside rest memtable generation => exact .inl ⟨hq, hclear⟩
  | compacting force rest => exact fun _ ↦ himm h.rest
  | _ => trivial

/-- The map once the section at a place is done. -/
def mapAfter (D : OrdMap Bytes Bytes) : WriterPc → OrdMap Bytes Bytes
  | .logged pending => applyBatch D pending
  | _ => D

omit [Lz4] [BloomSizing] in
theorem mapAfter_of_ne_logged {pc : WriterPc} (h : ∀ pending, pc ≠ .logged pending)
    (D : OrdMap Bytes Bytes) : mapAfter D pc = D := by
  cases pc with
  | logged pending => exact absurd rfl (h pending)
  | _ => rfl

omit [Lz4] [BloomSizing] in
theorem compactions_ne_logged (rest : List Bool) (pending : Pending) :
    WriterPc.compactions rest ≠ .logged pending := by
  cases rest <;> nofun

/-- Only a commit leads to the place behind its record. -/
theorem ne_logged_of_advance {pc pc' : WriterPc} {s s' : LsmSystem}
    (h : Lsm.advance pc s = (.ok pc', s')) (pending : Pending) : pc' ≠ .logged pending := by
  have hnext := next_of_advance h
  have hcompactions := fun rest ↦ compactions_ne_logged rest pending
  cases pc with
  | idle => exact hnext ▸ nofun
  | logged _ => rcases hnext with rfl | rfl <;> nofun
  | flushing rest =>
    obtain rfl | ⟨_, _, rfl⟩ := hnext
    · exact hcompactions rest
    · nofun
  | setAside _ _ _ =>
    obtain ⟨_, _, rfl⟩ := hnext
    nofun
  | written rest _ _ _ =>
    obtain rfl | rfl := hnext
    · exact hcompactions rest
    · nofun
  | compacting _ rest =>
    obtain rfl | ⟨_, rfl⟩ := hnext
    · exact hcompactions rest
    · nofun
  | picked _ _ =>
    obtain ⟨_, rfl⟩ := hnext
    nofun
  | reserved _ _ _ =>
    obtain ⟨_, rfl⟩ := hnext
    nofun
  | renamed _ _ => exact hnext ▸ nofun
  | durable _ _ => exact hnext ▸ nofun
  | switched rest _ => exact hnext ▸ hcompactions rest

theorem mapAfter_of_advance {pc pc' : WriterPc} {s s' : LsmSystem}
    (h : Lsm.advance pc s = (.ok pc', s')) (D : OrdMap Bytes Bytes) : mapAfter D pc' = D :=
  mapAfter_of_ne_logged (ne_logged_of_advance h) D

/-- The section leads to a place where what has to hold there holds; or it fails, and the operation
is over. -/
def Leads (tidy : Bool) (D D' : OrdMap Bytes Bytes) (x : Except BknError WriterPc × LsmSystem) :
    Prop :=
  (∃ pc, x.1 = .ok pc ∧ AtPlace tidy x.2 D' pc) ∨ ∃ e, x.1 = .error e ∧ AtRest tidy x.2 D

section

variable {tidy : Bool} {s : LsmSystem} {D : OrdMap Bytes Bytes}

theorem leads_logged {pending : Pending} (h : AtPlace tidy s D (.logged pending)) :
    Leads tidy D (applyBatch D pending) (Lsm.advance (.logged pending) s) := by
  obtain ⟨v, hlogged, -, himm⟩ := h
  obtain ⟨due, s', happly, hos, hintact, himm', -⟩ := applyPending_ok hlogged
  have hrest : AtRest tidy s' (applyBatch D pending) :=
    .intact _ hintact fun ht ↦ ⟨himm'.trans (himm ht), rfl⟩
  rw [Lsm.advance, Effect.bind_apply_of_ok happly]
  cases due with
  | true => exact .inl ⟨_, rfl, hrest⟩
  | false => exact .inl ⟨_, rfl, hrest⟩

omit [Lz4] [BloomSizing] in
theorem beginFlush_of_empty (h : s.backend.state.activeMemtable = ∅) :
    beginFlush s = (.ok none, s) := by
  rw [beginFlush, Effect.bind_apply_of_ok (Effect.get_apply s), if_pos (OrdMap.isEmpty_iff.mpr h)]
  rfl

theorem leads_flushing {rest : List Bool} (h : AtPlace tidy s D (.flushing rest))
    (hadmits : Admits s (.flushing rest)) (hclear : tidy = true → Clear s (.flushing rest)) :
    Leads tidy D D (Lsm.advance (.flushing rest) s) := by
  rw [Lsm.advance]
  by_cases hempty : s.backend.state.activeMemtable = ∅
  · rw [Effect.bind_apply_of_ok (beginFlush_of_empty hempty)]
    exact .inl ⟨_, rfl, Flushed.atPlace_compactions ⟨h, hempty⟩ rest⟩
  · have himm := hadmits.resolve_left hempty
    cases h with
    | detached htidy h => exact absurd h.active hempty
    | intact v h htidy =>
      rcases beginFlush_cases h himm with ⟨hempty', -⟩ |
        ⟨memtable, generation, s', hbegin, -, -, -, hflushing⟩ | ⟨hle, e, s', hbegin, -, hintact⟩
      · exact absurd hempty' hempty
      · rw [Effect.bind_apply_of_ok hbegin]
        exact .inl ⟨_, rfl, v, hflushing, fun ht ↦ (htidy ht).clean⟩
      · rw [Effect.bind_apply_of_error hbegin]
        refine .inr ⟨e, rfl, .intact v hintact fun ht ↦ ?_⟩
        exact absurd ((hclear ht).resolve_left hempty) (not_lt.mpr hle)

theorem atPlace_written {rest : List Bool} {memtable : Memtable} {generation : ℕ}
    (h : AtPlace tidy s D (.setAside rest memtable generation)) {handle : SstableHandle}
    {manifest : Manifest} {s' : LsmSystem}
    (hwrite : writeFlush memtable generation s = (.ok (handle, manifest), s')) :
    AtPlace tidy s' D (.written rest generation handle manifest) := by
  obtain ⟨v, hflushing, -⟩ := h
  obtain ⟨-, ⟨_, _, v', hr, -, -, -, hwritten⟩ | ⟨_, _, ⟨⟩, -⟩ | ⟨_, _, ⟨⟩, -⟩⟩ :=
    writeFlush_cases hflushing hwrite
  cases hr
  exact ⟨v', hwritten⟩

theorem leads_setAside {rest : List Bool} {memtable : Memtable} {generation : ℕ}
    (h : AtPlace tidy s D (.setAside rest memtable generation))
    (hadmits : Admits s (.setAside rest memtable generation))
    (hclear : tidy = true → s.os.Quiet ∧ Clear s (.setAside rest memtable generation)) :
    Leads tidy D D (Lsm.advance (.setAside rest memtable generation) s) := by
  rcases hwrite : writeFlush memtable generation s with ⟨e | ⟨handle, manifest⟩, s'⟩
  · -- only a write that something was in the way of has failed
    obtain ⟨v, hflushing, -⟩ := h
    have hnot : ¬(s.os.Quiet ∧ FlushFits s memtable generation) := fun ⟨hq, hfits⟩ ↦ by
      obtain ⟨r, s'', hok, -⟩ := writeFlush_of_quiet hq hfits
      rw [hok] at hwrite
      cases hwrite
    obtain ⟨v', hintact⟩ := hflushing.leftover (hadmits.resolve_left hnot) hwrite
    rw [Lsm.advance, Effect.bind_apply_of_error hwrite]
    exact .inr ⟨e, rfl, .intact v' hintact fun ht ↦ absurd (hclear ht) hnot⟩
  · rw [Lsm.advance, Effect.bind_apply_of_ok hwrite]
    exact .inl ⟨_, rfl, atPlace_written h hwrite⟩

theorem leads_written {rest : List Bool} {generation : ℕ} {handle : SstableHandle}
    {manifest : Manifest} (h : AtPlace tidy s D (.written rest generation handle manifest)) :
    Leads tidy D D (Lsm.advance (.written rest generation handle manifest) s) := by
  obtain ⟨v, hwritten⟩ := h
  obtain ⟨due, s', hpublish, -, -, -, -, hactive, hintact, hsettled⟩ := publishFlush_ok hwritten
  have hflushed : Flushed tidy s' D := ⟨.intact v hintact fun _ ↦ hsettled, hactive⟩
  rw [Lsm.advance, Effect.bind_apply_of_ok hpublish]
  cases due with
  | true => exact .inl ⟨_, rfl, hflushed⟩
  | false => exact .inl ⟨_, rfl, hflushed.atPlace_compactions rest⟩

theorem leads_compacting {force : Bool} {rest : List Bool}
    (h : AtPlace tidy s D (.compacting force rest)) (hadmits : Admits s (.compacting force rest)) :
    Leads tidy D D (Lsm.advance (.compacting force rest) s) := by
  have hflushed : Flushed tidy s D := h
  rw [Lsm.advance, pickSstables, bind_assoc, Effect.bind_apply_of_ok (Effect.get_apply s)]
  dsimp only
  split
  next hworth => exact .inl ⟨_, rfl, ⟨hflushed, hadmits hworth, rfl⟩⟩
  next => exact .inl ⟨_, rfl, hflushed.atPlace_compactions rest⟩

theorem leads_picked {rest : List Bool} {sstables : List SstableHandle}
    (h : AtPlace tidy s D (.picked rest sstables)) :
    Leads tidy D D (Lsm.advance (.picked rest sstables) s) := by
  obtain ⟨⟨hrest, hactive⟩, himm, hsst⟩ := h
  rw [Lsm.advance, reserveGeneration, bind_assoc, Effect.bind_apply_of_ok (Effect.get_apply s)]
  dsimp only
  rcases hadd : checkedAdd s.backend.state.nextSstableId 1 with e | next
  · exact .inr ⟨e, rfl, hrest⟩
  · have hle : s.backend.state.nextSstableId ≤ next := by
      rw [checkedAdd] at hadd
      split at hadd
      · cases hadd
        exact Nat.le_succ _
      · cases hadd
    exact .inl ⟨_, rfl, ⟨hrest.reserve next hle, hactive⟩, himm, hsst⟩

theorem leads_reserved {rest : List Bool} {sstables : List SstableHandle} {generation : ℕ}
    (h : AtPlace tidy s D (.reserved rest sstables generation)) :
    Leads tidy D D (Lsm.advance (.reserved rest sstables generation) s) := by
  have hmergeable : Mergeable tidy s D sstables := h
  rw [Lsm.advance, Effect.bind_apply_of_ok (Effect.get_apply s)]
  rcases hwrite : writeMerged s.backend.path (writeOptions s.backend.options) sstables generation
    s.os with ⟨r, os'⟩
  rcases hmergeable.writeMerged_cases hwrite with ⟨fresh, rfl, hrenamed⟩ | ⟨e, rfl, hbeside⟩
  · rw [bind_io_of_ok hwrite]
    exact .inl ⟨_, rfl, hrenamed⟩
  · rw [bind_io_of_error hwrite]
    exact .inr ⟨e, rfl, hmergeable.rest.beside hbeside⟩

omit [Lz4] [BloomSizing] in
theorem syncParentDir_cases {os os' : Os} {r : Except BknError Unit}
    (h : syncParentDir os = (r, os')) :
    os'.inodes = os.inodes ∧ os'.next = os.next ∧ os'.names = os.names ∧
      (os.Quiet → r = .ok ()) := by
  rw [syncParentDir] at h
  rcases Os.call_cases ioErr os with ⟨hcall, -⟩ | ⟨hcall, hanswer⟩
  · rw [Effect.bind_apply_of_ok hcall] at h
    rcases Os.call_cases ioErr os.pop with ⟨hcall', -⟩ | ⟨hcall', hanswer⟩
    · rw [hcall'] at h
      cases h
      exact ⟨rfl, rfl, rfl, fun _ ↦ rfl⟩
    · rw [hcall'] at h
      cases h
      exact ⟨rfl, rfl, rfl, fun hq ↦ absurd (hq.pop.symm ▸ hq.answer) hanswer⟩
  · rw [Effect.bind_apply_of_error hcall] at h
    cases h
    exact ⟨rfl, rfl, rfl, fun hq ↦ absurd hq.answer hanswer⟩

theorem leads_renamed {rest : List Bool} {fresh : FreshContainer}
    (h : AtPlace tidy s D (.renamed rest fresh)) (hclear : tidy = true → s.os.Quiet) :
    Leads tidy D D (Lsm.advance (.renamed rest fresh) s) := by
  obtain ⟨⟨⟨v, himage⟩, hplaced, hlive, hactive, himm⟩, hapart, hheld⟩ := h
  rcases hsync : syncParentDir s.os with ⟨r, os'⟩
  obtain ⟨hinodes, hnext, hnames, hok⟩ := syncParentDir_cases hsync
  have hcontents : ∀ i, os'.contents i = s.os.contents i := fun i ↦ by
    rw [Os.contents, Os.contents, hinodes]
  have hplaced' : Placed os' s.backend.path fresh.file :=
    ⟨hnames ▸ hplaced.named, hnext ▸ hplaced.lt_next, hnames ▸ hnext ▸ hplaced.apart⟩
  have hheld' : Held os' s.backend.path s.backend.container.file :=
    ⟨hnext ▸ hheld.lt_next, hnames ▸ hheld.apart⟩
  rw [Lsm.advance]
  rcases r with e | u
  · rw [bind_io_of_error hsync]
    refine .inr ⟨e, rfl, .detached ?_ ⟨⟨fresh.file, v, hapart, hplaced',
      (hcontents _).trans himage.contents, himage.denotes⟩, hheld', hlive, hactive, himm⟩⟩
    rw [Bool.eq_false_iff]
    intro ht
    cases hok (hclear ht)
  · rw [bind_io_of_ok hsync]
    refine .inl ⟨_, rfl, ⟨⟨v, { himage with contents := ?_, durable := ?_ }⟩, hplaced', hlive,
      hactive, himm⟩, hapart, hheld'⟩
    · exact (hcontents _).trans himage.contents
    · change (os'.inodes fresh.file).durable = os'.contents fresh.file
      rw [hcontents, hinodes]
      exact himage.durable

theorem leads_durable {rest : List Bool} {fresh : FreshContainer}
    (h : AtPlace tidy s D (.durable rest fresh)) :
    Leads tidy D D (Lsm.advance (.durable rest fresh) s) :=
  .inl ⟨_, rfl, ⟨h.image, h.placed, h.live, h.active, h.immutables⟩, rfl⟩

theorem leads_switched {rest : List Bool} {fresh : FreshContainer}
    (h : AtPlace tidy s D (.switched rest fresh)) :
    Leads tidy D D (Lsm.advance (.switched rest fresh) s) := by
  obtain ⟨⟨⟨v, himage⟩, hplaced, hlive, hactive, himm⟩, hcontainer⟩ := h
  have hflushed : Flushed tidy (Lsm.advance (.switched rest fresh) s).2 D := by
    refine ⟨.intact v ⟨⟨?_, ?_⟩, InMemory.of_books himage.denotes himm ?_ ?_⟩
      fun _ ↦ ⟨himm, himage.clean⟩, hactive⟩
    · change s.os.contents s.backend.container.file = v.file
      rw [hcontainer]
      exact himage.contents
    · change Placed s.os s.backend.path s.backend.container.file
      rw [hcontainer]
      exact hplaced
    · rw [himage.records]
      exact hactive
    · refine ⟨?_, ?_, ?_, ?_, ?_, ?_⟩
      · change s.backend.container.headerSeq = _
        rw [hcontainer, himage.seq]
      · change s.backend.container.headerSlot = _
        rw [hcontainer, himage.slot]
      · rw [himage.tables]
        exact .cons himage.holds .nil
      · rw [himage.manifest, himage.refs]
        rfl
      · rw [himage.manifest]
        rfl
      · rw [himage.manifest]
        exact le_rfl
  exact .inl ⟨_, rfl, hflushed.atPlace_compactions rest⟩

/-- **What a section does**, at any place. -/
theorem AtPlace.advance {pc : WriterPc} (h : AtPlace tidy s D pc) (hadmits : Admits s pc)
    (hclear : tidy = true → s.os.Quiet ∧ Clear s pc) :
    Leads tidy D (mapAfter D pc) (Lsm.advance pc s) := by
  cases pc with
  | idle => exact .inl ⟨_, rfl, h⟩
  | logged pending => exact leads_logged h
  | flushing rest => exact leads_flushing h hadmits fun ht ↦ (hclear ht).2
  | setAside rest memtable generation => exact leads_setAside h hadmits hclear
  | written rest generation handle manifest => exact leads_written h
  | compacting force rest => exact leads_compacting h hadmits
  | picked rest sstables => exact leads_picked h
  | reserved rest sstables generation => exact leads_reserved h
  | renamed rest fresh => exact leads_renamed h fun ht ↦ (hclear ht).1
  | durable rest fresh => exact leads_durable h
  | switched rest fresh => exact leads_switched h

/-! ## Appending

An append needs the engine's container to be the file at the path and the log to reach to its end;
otherwise the record would be written where no open looks for it. -/

/-- The file at the path is the engine's, and its log reaches to the end. -/
structure Appendable (s : LsmSystem) : Prop where
  attached : s.os.names s.backend.path = some s.backend.container.file
  clean : LogClean (s.os.contents s.backend.container.file)

instance (s : LsmSystem) : Decidable (Appendable s) :=
  decidable_of_iff (_ ∧ _) ⟨fun ⟨h, h'⟩ ↦ Appendable.mk h h', fun ⟨h, h'⟩ ↦ ⟨h, h'⟩⟩

omit [BloomSizing] in
theorem AtRest.intact_of_appendable (h : AtRest tidy s D) (happ : Appendable s) :
    ∃ v, Intact s v D ∧ v.Clean ∧ (tidy = true → Settled s v) := by
  cases h with
  | intact v h htidy =>
    have hclean := happ.clean
    rw [h.disk.contents, v.logClean_file_iff] at hclean
    exact ⟨v, h, hclean, htidy⟩
  | detached htidy h =>
    obtain ⟨i, v, hne, hplaced, -⟩ := h.image
    have hnamed := hplaced.named
    rw [happ.attached] at hnamed
    exact absurd (Option.some.inj hnamed).symm hne

omit [BloomSizing] in
/-- A tidy engine can append. -/
theorem AtRest.appendable (h : AtRest true s D) : Appendable s := by
  cases h with
  | intact v h htidy =>
    refine ⟨h.disk.placed.named, ?_⟩
    rw [h.disk.contents, v.logClean_file_iff]
    exact (htidy rfl).clean
  | detached htidy h => cases htidy

omit [BloomSizing] in
/-- **An append** puts the batch into the log; or it fails and leaves the map. -/
theorem AtRest.append_cases (h : AtRest tidy s D) (happ : Appendable s) (hsync : ¬SyncFails s.os)
    {pending : Pending}
    (hclear : tidy = true → s.os.Quiet ∧ (s.os.contents s.backend.container.file).length +
      (Wal.frame (⟨pending.entries⟩ : WalRecord).serialize).length ≤ Os.maxLen)
    {r : Except BknError Unit} {s' : LsmSystem} (hrun : appendRecord pending s = (r, s')) :
    (r = .ok () ∧ AtPlace tidy s' D (.logged pending)) ∨ ∃ e, r = .error e ∧ AtRest tidy s' D := by
  obtain ⟨v, hintact, hclean, htidy⟩ := h.intact_of_appendable happ
  cases r with
  | ok u =>
    obtain ⟨hlogged, hbackend, -⟩ := appendRecord_ok hintact hclean hrun
    refine .inl ⟨rfl, v, hlogged, hclean, fun ht ↦ ?_⟩
    rw [hbackend]
    exact (htidy ht).immutables
  | error e =>
    right
    refine ⟨e, rfl, ?_⟩
    rcases appendRecord_error hintact hclean hsync hrun with ⟨-, rfl⟩ | ⟨hfits, v', hintact'⟩
    · exact .intact v hintact htidy
    · refine .intact v' hintact' fun ht ↦ ?_
      obtain ⟨hq, hroom⟩ := hclear ht
      obtain ⟨os', happend, -⟩ := Wal.append_of_quiet hq hfits hroom
      rw [appendRecord_apply, happend] at hrun
      cases hrun

end

end Lsm
