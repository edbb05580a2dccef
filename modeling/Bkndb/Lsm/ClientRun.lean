import Bkndb.Lsm.Client
import Bkndb.Lsm.Session

/-!
# Clients of the log-structured backend

A client of `LsmStorageBackend` calls whole operations: a commit logs its batch, writes it to the
memtable, and flushes and merges if that is due, all before it returns. Between two calls the
database may be compacted or closed and opened again.

## Sections on the way

An operation is its sections in a row, and what a section needs is a condition on the state before
it. `Along` says that every section on the way meets a condition; it follows the sections as long as
they go through.

## Main results

* `AtPlace.remaining`: an operation whose sections are not refused returns `Ok`.
* `explains_of_unrefused`: every answer that a client gets is the one that a map for each table
  gives.
* `not_explains_hugeBlocks`: a commit that fails with its batch visible.
-/

open Layers

namespace Lsm

section

variable [Lz4] [BloomSizing]

/-- Every section that an operation comes to from this place meets the condition. -/
inductive Along (P : LsmSystem → WriterPc → Prop) : WriterPc → LsmSystem → Prop
  | idle (s : LsmSystem) : Along P .idle s
  | next {pc : WriterPc} {s : LsmSystem} (h : P s pc)
    (hnext : ∀ pc' s', advance pc s = (.ok pc', s') → Along P pc' s') : Along P pc s

/-- The same, checked for so many sections. -/
def alongWithin (P : LsmSystem → WriterPc → Prop) [∀ s pc, Decidable (P s pc)] :
    ℕ → WriterPc → LsmSystem → Bool
  | _, .idle, _ => true
  | 0, _, _ => false
  | n + 1, pc, s => decide (P s pc) &&
    match advance pc s with
    | (.ok pc', s') => alongWithin P n pc' s'
    | (.error _, _) => true

theorem along_of_within {P : LsmSystem → WriterPc → Prop} [∀ s pc, Decidable (P s pc)] {n : ℕ}
    {pc : WriterPc} {s : LsmSystem} (h : alongWithin P n pc s = true) : Along P pc s := by
  induction n generalizing pc s with
  | zero =>
    cases pc with
    | idle => exact .idle s
    | _ => cases h
  | succ n ih =>
    have hsection : ∀ {pc}, (decide (P s pc) && match advance pc s with
        | (.ok pc', s') => alongWithin P n pc' s'
        | (.error _, _) => true) = true → Along P pc s := by
      intro pc h
      obtain ⟨hP, hrest⟩ := Bool.and_eq_true_iff.mp h
      refine .next (of_decide_eq_true hP) fun pc' s' hrun ↦ ih ?_
      rwa [hrun] at hrest
    cases pc with
    | idle => exact .idle s
    | _ => exact hsection h

/-- A merge is under way that may still be given up. -/
def MayGiveUp : WriterPc → Prop
  | .picked .. | .reserved .. => True
  | _ => False

instance : (pc : WriterPc) → Decidable (MayGiveUp pc)
  | .picked .. | .reserved .. => .isTrue trivial
  | .idle | .logged _ | .flushing _ | .setAside .. | .written .. | .compacting .. | .renamed .. |
    .durable .. | .switched .. => .isFalse id

/-- The section is not refused, unless it belongs to a merge that was asked for, and no call of the
operating system fails in it. -/
def Goes (forced : Bool) (s : LsmSystem) (pc : WriterPc) : Prop :=
  (Unrefused s pc ∨ forced = true ∧ MayGiveUp pc) ∧ (advance pc s).2.os.failed = false

instance (forced : Bool) (s : LsmSystem) (pc : WriterPc) : Decidable (Goes forced s pc) :=
  inferInstanceAs (Decidable ((_ ∨ _) ∧ _))

variable {s : LsmSystem} {D : OrdMap Bytes Bytes}

theorem AtPlace.goes {forced : Bool} {pc : WriterPc} (h : AtPlace true s D pc) (hq : s.os.Quiet)
    (hgoes : Goes forced s pc) :
    (∃ pc' s', Lsm.advance pc s = (.ok pc', s') ∧ AtPlace true s' (mapAfter D pc) pc') ∨
      ∃ e s', Lsm.advance pc s = (.error e, s') ∧ AtRest true s' D ∧ mapAfter D pc = D ∧
        forced = true := by
  obtain ⟨hun | ⟨hforced, hmay⟩, hok⟩ := hgoes
  · obtain ⟨pc', hpc, hplace⟩ := h.progress hq hun hok
    exact .inl ⟨pc', _, Prod.ext hpc rfl, hplace⟩
  · cases pc with
    | picked rest sstables =>
      rcases h.advance trivial fun _ ↦ ⟨hq, trivial⟩ with ⟨pc', hpc, hplace⟩ | ⟨e, herror, hrest⟩
      · exact .inl ⟨pc', _, Prod.ext hpc rfl, hplace⟩
      · exact .inr ⟨e, _, Prod.ext herror rfl, hrest, rfl, hforced⟩
    | reserved rest sstables generation =>
      rcases h.advance trivial fun _ ↦ ⟨hq, trivial⟩ with ⟨pc', hpc, hplace⟩ | ⟨e, herror, hrest⟩
      · exact .inl ⟨pc', _, Prod.ext hpc rfl, hplace⟩
      · exact .inr ⟨e, _, Prod.ext herror rfl, hrest, rfl, hforced⟩
    | _ => exact hmay.elim

/-- **An operation** whose sections are not refused ends with the engine at rest, and returns `Ok`
unless it was a merge that was given up. -/
theorem AtPlace.remaining {forced : Bool} {pc : WriterPc} (halong : Along (Goes forced) pc s)
    (h : AtPlace true s D pc) (hq : s.os.Quiet) :
    ∃ r s', Lsm.remaining pc s = (r, s') ∧ s'.os.Quiet ∧ AtRest true s' (mapAfter D pc) ∧
      (forced = false → r = .ok ()) := by
  induction halong generalizing D with
  | idle s => exact ⟨_, s, rfl, hq, h, fun _ ↦ rfl⟩
  | @next pc s hgoes _ ih =>
    have hquiet := h.quiet_advance hq
    rw [remaining_eq]
    rcases h.goes hq hgoes with ⟨pc', s', hrun, hplace⟩ | ⟨e, s', hrun, hrest, hmap, hforced⟩
    · rw [hrun] at hquiet
      obtain ⟨r, s'', hremaining, hq', hrest, hok⟩ := ih pc' s' hrun hplace hquiet
      rw [mapAfter_of_advance hrun] at hrest
      exact ⟨r, s'', by rw [Effect.bind_apply_of_ok hrun, hremaining], hq', hrest, hok⟩
    · rw [hrun] at hquiet
      refine ⟨.error e, s', Effect.bind_apply_of_error hrun, hquiet, hmap.symm ▸ hrest, fun hf ↦ ?_⟩
      rw [hforced] at hf
      cases hf

/-- No section of the commit is refused, and no call fails. -/
def CommitGoes (s : LsmSystem) (w : WriteTx) : Prop :=
  w.pending.isEmpty = true ∨ ((appendRecord w.pending s).2.os.failed = false ∧
    ∀ s', appendRecord w.pending s = (.ok (), s') → Along (Goes false) (.logged w.pending) s')

/-- **A commit** takes the map to the one under its batch; or the batch is too large for a record,
and nothing changes. -/
theorem AtRest.commitPending {w : WriteTx} (h : AtRest true s D) (hq : s.os.Quiet)
    (hgoes : CommitGoes s w) :
    ∃ r s', Lsm.commitPending w.pending s = (r, s') ∧ s'.os.Quiet ∧
      ((r = .ok () ∧ AtRest true s' (applyBatch D w.pending)) ∨
        ∃ e, r = .error e ∧ AtRest true s' D ∧ ¬(⟨w.pending.entries⟩ : WalRecord).Fits) := by
  cases hempty : w.pending.isEmpty with
  | true =>
    have hrun : Lsm.commitPending w.pending s = (.ok (), s) := by
      rw [Lsm.commitPending, hempty]
      rfl
    refine ⟨_, s, hrun, hq, .inl ⟨rfl, ?_⟩⟩
    rw [OrdMap.isEmpty_iff.mp hempty]
    exact h
  | false =>
    obtain ⟨hok, hsections⟩ := hgoes.resolve_left (by simp [hempty])
    rw [commitPending_eq _ hempty]
    rcases hrun : appendRecord w.pending s with ⟨r, s'⟩
    rw [hrun] at hok
    obtain ⟨hq', ⟨rfl, hplace⟩ | ⟨e, rfl, rfl, hfits⟩⟩ := h.append_undisturbed hq hrun hok
    · obtain ⟨r, s'', hremaining, hq'', hrest, hr⟩ := hplace.remaining (hsections s' hrun) hq'
      exact ⟨r, s'', by rw [Effect.bind_apply_of_ok hrun, hremaining], hq'', .inl ⟨hr rfl, hrest⟩⟩
    · exact ⟨_, _, Effect.bind_apply_of_error hrun, hq', .inr ⟨e, rfl, h, hfits⟩⟩

end

end Lsm

section

variable [Lz4] [BloomSizing]

open Lsm

/-- `LsmStorageBackend` as a storage backend. -/
def lsmBackend : StorageBackend LsmSystem ReadTx WriteTx where
  readTx := ⟨ReadTx.get, ReadTx.range, ReadTx.scan⟩
  writeTx :=
    { get := WriteTx.get
      range := WriteTx.range
      scan := WriteTx.scan
      put := WriteTx.put
      delete := WriteTx.delete
      commit := WriteTx.commit }
  beginRead s := Lsm.beginRead s.backend
  beginWrite s := Lsm.beginWrite s.backend

/-- The engine at rest stands for the map, and so do the snapshots of transactions. -/
def lsmRefinement : lsmBackend.Refinement CommitGoes where
  committed s M := s.os.Quiet ∧ ∃ D, AtRest true s D ∧ Contents.Represents D M
  reading r M := ∃ D, SnapshotDenotes r.snapshot D ∧ Contents.Represents D M
  writing s w M := s.os.Quiet ∧ ∃ D, AtRest true s D ∧ SnapshotDenotes w.snapshot D ∧
    Contents.Represents (applyBatch D w.pending) M
  beginRead := fun ⟨_, D, hrest, hrep⟩ ↦ ⟨D, hrest.live, hrep⟩
  beginWrite := fun ⟨hq, D, hrest, hrep⟩ ↦ ⟨hq, D, hrest, hrest.live, hrep⟩
  readAnswers := fun ⟨_, hlive, hrep⟩ ↦ hrep.answers (ReadTx.reads hlive)
  writeAnswers := fun ⟨_, _, _, hlive, hrep⟩ ↦ hrep.answers (WriteTx.reads hlive)
  put := by
    rintro s w M table ⟨hq, D, hrest, hlive, hrep⟩ hname key value
    have hput : w.put table key value = .ok { w with
        pending := w.pending.insert (Keys.prefixBytes table ++ key) (some value) } := by
      rw [WriteTx.put, Keys.encodeKey_of_named hname]
      rfl
    exact ⟨_, hput, hq, D, hrest, hlive, hrep.put hname key value⟩
  delete := by
    rintro s w M table ⟨hq, D, hrest, hlive, hrep⟩ hname key
    have hdelete : w.delete table key = .ok { w with
        pending := w.pending.insert (Keys.prefixBytes table ++ key) none } := by
      rw [WriteTx.delete, Keys.encodeKey_of_named hname]
      rfl
    exact ⟨_, hdelete, hq, D, hrest, hlive, hrep.delete hname key⟩
  commit_ok := by
    rintro s s' w M ⟨hq, D, hrest, -, hrep⟩ hgoes hrun
    obtain ⟨r, s'', hcommit, hq', ⟨-, hrest'⟩ | ⟨e, rfl, -⟩⟩ := hrest.commitPending hq hgoes
    · obtain ⟨-, rfl⟩ := Prod.mk.inj (hcommit.symm.trans hrun)
      exact ⟨hq', _, hrest', hrep⟩
    · cases hcommit.symm.trans hrun
  commit_error := by
    rintro s s' w M e ⟨hq, D, hrest, hrep⟩ hgoes hrun
    obtain ⟨r, s'', hcommit, hq', ⟨rfl, -⟩ | ⟨e', -, hrest', -⟩⟩ := hrest.commitPending hq hgoes
    · cases hcommit.symm.trans hrun
    · obtain ⟨-, rfl⟩ := Prod.mk.inj (hcommit.symm.trans hrun)
      exact ⟨hq', _, hrest', hrep⟩

/-- What a program calls: the transactions, and two operations that this backend has beside them. -/
inductive LsmCall where
  | storage (call : StorageCall)
  | forceCompact
  /-- The database is closed and opened again. -/
  | reopen (options : LsmOptions)

abbrev LsmClient := Client LsmSystem ReadTx WriteTx

namespace LsmClient

/-- A read transaction does not outlive its backend in the source; here nothing keeps a program
from asking one that was begun before a reopen. -/
def step (c : LsmClient) : LsmCall → Option LsmClient
  | .storage call => Client.step lsmBackend c call
  | .forceCompact =>
    match c.writer with
    | none => some { c with backend := (Lsm.forceCompact c.backend).2 }
    | some _ => none
  | .reopen options =>
    match c.writer, openWithOptions c.backend.backend.path options c.backend.os with
    | none, (.ok b, os) => some { c with backend := ⟨os, b⟩ }
    | _, _ => none

/-- The client of a database that was just made. -/
structure Opened (c : LsmClient) : Prop where
  made : Made c.backend
  new : c = Client.new c.backend

/-- Table names fit their length byte. -/
def Named : LsmCall → Prop
  | .storage call => call.Named
  | .forceCompact | .reopen _ => True

instance : (call : LsmCall) → Decidable (Named call)
  | .storage call => inferInstanceAs (Decidable call.Named)
  | .forceCompact | .reopen _ => .isTrue trivial

/-- No call of the operating system fails. -/
def Undamaged (c : LsmClient) (call : LsmCall) : Prop :=
  ∀ c', step c call = some c' → c'.backend.os.failed = false

instance (c : LsmClient) (call : LsmCall) : Decidable (Undamaged c call) :=
  decidable_of_iff ((step c call).all fun c' ↦ !c'.backend.os.failed) (by
    rw [Option.all_eq_true]
    simp [Undamaged])

/-- No table that is to be written is refused, no counter runs out, and no call of the operating
system fails. -/
def Unrefused (c : LsmClient) : LsmCall → Prop
  | .storage .commit => ∀ w, c.writer = some w → CommitGoes c.backend w
  | .storage _ | .reopen _ => True
  | .forceCompact => Along (Goes true) (.flushing [true]) c.backend

theorem reopens {c : LsmClient} {M : Contents} (h : lsmRefinement.committed c.backend M)
    (hwriter : c.writer = none) (options : LsmOptions) : ∃ s, step c (.reopen options) =
      some { c with backend := s } ∧ lsmRefinement.committed s M := by
  obtain ⟨hq, D, hrest, hrep⟩ := h
  obtain ⟨i, v, hplaced, hcontents, hdenotes⟩ := hrest.image
  obtain ⟨b, os', hopen, hq', -, hrest'⟩ :=
    openWithOptions_placed hq hplaced hcontents hdenotes options
  refine ⟨⟨os', b⟩, ?_, hq', D, hrest', hrep⟩
  rw [step, hwriter, hopen]

/-- **Every call** gets the map's answer, and what lies between two calls leaves the map. -/
theorem exists_inv_of_step {c c' : LsmClient} {call : LsmCall} (h : ∃ i, lsmRefinement.Inv c i)
    (hname : Named call) (hun : Unrefused c call) (hs : step c call = some c') :
    ∃ i, lsmRefinement.Inv c' i := by
  obtain ⟨i, hinv⟩ := h
  have hkeeps : ∀ s, lsmRefinement.committed s i.contents → c.writer = none →
      lsmRefinement.Inv { c with backend := s } i := by
    intro s hs hwriter
    refine ⟨hs, hinv.readers, ?_, hinv.log⟩
    obtain ⟨-, hi⟩ | ⟨w, -, hw, -⟩ := hinv.writer_cases
    · change Option.Rel _ c.writer i.writer
      rw [hwriter, hi]
      exact .none
    · rw [hwriter] at hw
      cases hw
  cases call with
  | storage call =>
    have hmeets : StorageBackend.Refinement.Meets CommitGoes c call := by
      cases call with
      | commit => exact hun
      | _ => trivial
    rcases hinv.step hname hmeets with ⟨hnone, -⟩ | ⟨c'', _, i', hsome, -, -, -, hinv'⟩
    · cases hnone.symm.trans hs
    · obtain rfl := Option.some.inj (hsome.symm.trans hs)
      exact ⟨i', hinv'⟩
  | forceCompact =>
    rw [step] at hs
    split at hs
    next hwriter =>
      obtain rfl := Option.some.inj hs
      obtain ⟨hq, D, hrest, hrep⟩ := hinv.committed
      have hplace : AtPlace true c.backend D (.flushing [true]) := hrest
      obtain ⟨r, s', hrun, hq', hrest', -⟩ := hplace.remaining hun hq
      rw [forceCompact_eq, hrun]
      exact ⟨i, hkeeps s' ⟨hq', D, hrest', hrep⟩ hwriter⟩
    next => cases hs
  | reopen options =>
    have hwriter : c.writer = none := by
      rw [step] at hs
      split at hs
      next hwriter _ => exact hwriter
      next => cases hs
    obtain ⟨s, hsome, hcommitted⟩ := reopens hinv.committed hwriter options
    obtain rfl := Option.some.inj (hsome.symm.trans hs)
    exact ⟨i, hkeeps s hcommitted hwriter⟩

/-- **The log-structured backend is a map for each table.** In every run of calls, with names that
fit, in which no call of the operating system fails and no table is refused, every answer is the one
that the map gives, and the database can be opened again. -/
theorem explains_of_unrefused (c : LsmClient) (hc : Opened c) (calls : List LsmCall)
    (hname : ∀ call ∈ calls, Named call) (hun : Run.EachStep step Unrefused c calls)
    (c' : LsmClient) (hrun : Run.run step c calls = some c') :
    (∃ i, SerialStore.Explains c'.log i) ∧
      (c'.writer = none → ∀ options, ∃ c'', step c' (.reopen options) = some c'') := by
  have hnamed : Run.EachStep step (fun _ call ↦ Named call) c calls := by
    clear hun hrun hc
    induction calls generalizing c with
    | nil => trivial
    | cons call calls ih =>
      refine ⟨hname call List.mem_cons_self, fun c₁ _ ↦ ih c₁ ?_⟩
      exact fun call' hmem ↦ hname call' (List.mem_cons_of_mem _ hmem)
  have hnew : lsmRefinement.Inv c SerialStore.new := by
    obtain ⟨hq, hrest⟩ := hc.made.atRest
    rw [hc.new]
    exact .new ⟨hq, ∅, hrest, Contents.represents_empty⟩
  obtain ⟨i, hinv⟩ := Run.invariant (fun _ _ _ h hcond hs ↦ exists_inv_of_step h hcond.1 hcond.2 hs)
    ⟨_, hnew⟩ (hnamed.and hun) hrun
  refine ⟨⟨i, hinv.log⟩, fun hwriter options ↦ ?_⟩
  obtain ⟨s, hsome, -⟩ := reopens hinv.committed hwriter options
  exact ⟨_, hsome⟩

end LsmClient

end

/-! ## Two programs -/

namespace LsmClient

open Lsm Lsm.Sample

/-- The condition on a call, checked for so many sections of an operation. -/
def unrefusedWithin (n : ℕ) (c : LsmClient) : LsmCall → Bool
  | .storage .commit =>
    match c.writer with
    | none => true
    | some w => w.pending.isEmpty ||
      match appendRecord w.pending c.backend with
      | (.ok (), s) => !s.os.failed && alongWithin (Goes false) n (.logged w.pending) s
      | (.error _, s) => !s.os.failed
  | .storage _ | .reopen _ => true
  | .forceCompact => alongWithin (Goes true) n (.flushing [true]) c.backend

theorem unrefused_of_within {n : ℕ} {c : LsmClient} {call : LsmCall}
    (h : unrefusedWithin n c call = true) : Unrefused c call := by
  cases call with
  | storage call =>
    cases call with
    | commit =>
      intro w hw
      rw [unrefusedWithin, hw] at h
      dsimp only at h
      rcases Bool.or_eq_true_iff.mp h with hempty | hrest
      · exact .inl hempty
      · right
        rcases hrun : appendRecord w.pending c.backend with ⟨e | ⟨⟨⟩⟩, s⟩
        · rw [hrun] at hrest
          exact ⟨by simpa using hrest, fun s' hs' ↦ by cases hs'⟩
        · rw [hrun] at hrest
          obtain ⟨hok, halong⟩ := Bool.and_eq_true_iff.mp hrest
          refine ⟨by simpa using hok, fun s' hs' ↦ ?_⟩
          obtain rfl := (Prod.mk.inj hs').2
          exact along_of_within halong
    | _ => trivial
  | forceCompact => exact along_of_within h
  | reopen options => trivial

/-- A commit that stays in the log; the database is opened again; a deletion that is flushed, with
a read transaction before it, and a commit that is flushed and merged; then the database is
compacted. -/
def reopenedCalls : List LsmCall :=
  [.storage .beginWrite, .storage (.put "t" [7] [1]), .storage .commit, .reopen eagerOptions,
    .storage .beginRead, .storage .beginWrite, .storage (.delete "t" [7]), .storage .commit,
    .storage (.get (.reader 0) "t" [7]), .storage .beginWrite, .storage (.put "u" [] [5]),
    .storage .commit, .forceCompact, .storage .beginRead, .storage (.get (.reader 1) "t" [7]),
    .storage (.scan (.reader 1) "u" .unbounded .unbounded), .storage .beginWrite,
    .storage (.put "u" [3] [6]), .storage (.range .writer "u" (.excluded []) .unbounded),
    .storage .rollback]

def goesThrough (s : LsmSystem) : Bool :=
  decide (Run.EachStep step (fun c call ↦ unrefusedWithin 20 c call = true) (Client.new s)
    reopenedCalls) &&
    (Run.run step (Client.new s) reopenedCalls).any fun c ↦ decide (c.log.length = 18)

theorem explains_of_unrefused_reopened : ∃ c c', Run.run step c reopenedCalls = some c' ∧
    c'.log.length = 18 ∧ ∃ i, SerialStore.Explains c'.log i := by
  have hgoes : (madeSystem ⟨6, 2, 16, true⟩).any goesThrough = true := by decide +kernel
  obtain ⟨s, hmade, hgoes⟩ := (Option.any_eq_true _ _).mp hgoes
  rw [goesThrough, Bool.and_eq_true, decide_eq_true_iff] at hgoes
  obtain ⟨hun, hlen⟩ := hgoes
  obtain ⟨c', hrun, hlen⟩ := (Option.any_eq_true _ _).mp hlen
  refine ⟨Client.new s, c', hrun, of_decide_eq_true hlen, ?_⟩
  exact (explains_of_unrefused (Client.new s) ⟨made_of_madeSystem hmade, rfl⟩ reopenedCalls
    (by decide) (hun.mono fun _ _ ↦ unrefused_of_within) c' hrun).1

/-- A commit whose table does not go through, and a read. -/
def hugeBlocksCalls : List LsmCall :=
  [.storage .beginWrite, .storage (.put "t" [7] [1]), .storage .commit, .storage .beginRead,
    .storage (.get (.reader 0) "t" [7])]

/-- The commit has failed, and the read finds its value. -/
def showsFailed : StorageLog → Bool
  | [(.beginWrite, _), (.put _ _ _, _), (.commit, .done (.error _)), (.beginRead, _),
      (.get (.reader 0) "t" [7], .value (.ok (some _)))] => true
  | _ => false

theorem not_explains_of_showsFailed {log : StorageLog} (h : showsFailed log = true)
    (i : SerialStore) : ¬SerialStore.Explains log i := by
  intro hexplains
  rw [showsFailed.eq_def] at h
  split at h
  next a b k v a' e a'' v' =>
    obtain ⟨i₅, hexplains, hget⟩ := @SerialStore.explains_snoc [_, _, _, _] _ _ _ |>.mp hexplains
    obtain ⟨i₄, hexplains, hread⟩ := @SerialStore.explains_snoc [_, _, _] _ _ _ |>.mp hexplains
    obtain ⟨i₃, hexplains, hcommit⟩ := @SerialStore.explains_snoc [_, _] _ _ _ |>.mp hexplains
    obtain ⟨i₂, hexplains, hput⟩ := @SerialStore.explains_snoc [_] _ _ _ |>.mp hexplains
    obtain ⟨i₁, hexplains, hbegin⟩ := @SerialStore.explains_snoc [] _ _ _ |>.mp hexplains
    obtain rfl : i₁ = SerialStore.new := by
      generalize hlog : ([] : StorageLog) = l at hexplains
      cases hexplains with
      | nil => rfl
      | snoc => simp at hlog
    cases hbegin.step nofun
    cases hput.step nofun
    -- the commit has failed, so the map is empty when the reader begins
    cases hcommit with
    | same h => cases h
    | refused h =>
      cases hread.step nofun
      cases hget.step nofun
  next => cases h

/-- **A commit that fails has written**: a table that cannot be built makes the commit fail when its
batch is in the memtable already, and a read finds it. -/
theorem not_explains_hugeBlocks : ¬∀ c : LsmClient, Opened c → ∀ calls : List LsmCall,
    (∀ call ∈ calls, Named call) → Run.EachStep step Undamaged c calls → ∀ c' : LsmClient,
      Run.run step c calls = some c' → ∃ i, SerialStore.Explains c'.log i := by
  intro h
  have hgoes : (madeSystem ⟨1, 2, 2 ^ 63, true⟩).any (fun s ↦
      decide (Run.EachStep step Undamaged (Client.new s) hugeBlocksCalls) &&
        (Run.run step (Client.new s) hugeBlocksCalls).any fun c ↦ showsFailed c.log) = true := by
    decide +kernel
  obtain ⟨s, hmade, hgoes⟩ := (Option.any_eq_true _ _).mp hgoes
  obtain ⟨hok, hshows⟩ := Bool.and_eq_true_iff.mp hgoes
  obtain ⟨c', hrun, hshows⟩ := (Option.any_eq_true _ _).mp hshows
  obtain ⟨i, hexplains⟩ := h (Client.new s) ⟨made_of_madeSystem hmade, rfl⟩ hugeBlocksCalls
    (by decide) (of_decide_eq_true hok) c' hrun
  exact not_explains_of_showsFailed hshows i hexplains

end LsmClient
