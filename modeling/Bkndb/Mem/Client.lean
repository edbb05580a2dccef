import Bkndb.Lsm.ClientRun
import Bkndb.Mem.Backend

/-!
# Two backends at every call

A client cannot tell the in-memory backend from the log-structured one: the answers to all of its
calls are the same, from begins and reads to the commits themselves. There is one limit that only
the log-structured backend has. The record of a batch has a length of four bytes, and a batch that
does not fit is refused.

## Main results

* `logs_eq_of_fitting`: the same program is told the same by both.
* `not_logs_eq_hugeValue`: a value of 4 GiB is committed by one and refused by the other.
-/

open Lsm

/-- `MemoryStorageBackend` as a storage backend. -/
def memBackend : StorageBackend Mem.MemoryStorageBackend Mem.MemReadTx Mem.MemWriteTx where
  readTx := ⟨Mem.MemReadTx.get, Mem.MemReadTx.range, Mem.MemReadTx.scan⟩
  writeTx :=
    { get := Mem.MemWriteTx.get
      range := Mem.MemWriteTx.range
      scan := Mem.MemWriteTx.scan
      put := Mem.MemWriteTx.put
      delete := Mem.MemWriteTx.delete
      commit := fun w b ↦
        match w.commit b with
        | .ok b' => (.ok (), b')
        | .error e => (.error e, b) }
  beginRead := Mem.beginRead
  beginWrite := Mem.beginWrite

theorem exists_memCommit (w : Mem.MemWriteTx) (b : Mem.MemoryStorageBackend) :
    ∃ b', w.commit b = .ok b' ∧ memBackend.writeTx.commit w b = (.ok (), b') := by
  obtain ⟨b', hb'⟩ : ∃ b', w.commit b = .ok b' := by
    rw [Mem.MemWriteTx.commit]
    split <;> exact ⟨_, rfl⟩
  refine ⟨b', hb', ?_⟩
  change (match w.commit b with | .ok b' => (Except.ok (), b') | .error e => (.error e, b)) = _
  rw [hb']

/-- The tables hold the map, and so do the tables that a transaction keeps. -/
def memRefinement : memBackend.Refinement fun _ _ ↦ True where
  committed b M := Mem.Holds b.tables M
  reading r M := Mem.Holds r.snapshot M
  writing b w M := w.snapshot = b.tables ∧ Mem.Overlaid w.snapshot w.pending M
  beginRead := fun h ↦ h
  beginWrite := fun h ↦ ⟨rfl, Mem.overlaid_beginWrite h⟩
  readAnswers := fun h ↦ Mem.MemReadTx.answers h
  writeAnswers := fun h ↦ Mem.MemWriteTx.answers h.2
  put := fun h _ key value ↦ ⟨_, rfl, h.1, h.2.write _ key (some value)⟩
  delete := fun h _ key ↦ ⟨_, rfl, h.1, h.2.write _ key none⟩
  commit_ok := by
    rintro b b' w M ⟨hsnap, hover⟩ - hrun
    obtain ⟨b'', hcommit, hrun'⟩ := exists_memCommit w b
    obtain ⟨-, rfl⟩ := Prod.mk.inj (hrun'.symm.trans hrun)
    exact Mem.holds_commit hover hsnap hcommit
  commit_error := by
    rintro b b' w M e - - hrun
    obtain ⟨b'', -, hrun'⟩ := exists_memCommit w b
    cases hrun'.symm.trans hrun

/-- A client of an empty backend. -/
def MemClient.new : Client Mem.MemoryStorageBackend Mem.MemReadTx Mem.MemWriteTx := Client.new ⟨∅⟩

namespace LsmClient

section

variable [Lz4] [BloomSizing]

/-- No section of the commit is refused, no call fails, and the batch fits its record. -/
def CommitFits (s : LsmSystem) (w : WriteTx) : Prop :=
  CommitGoes s w ∧ (⟨w.pending.entries⟩ : WalRecord).Fits

theorem commitFits_ok {s : LsmSystem} {w : WriteTx} {D : OrdMap Bytes Bytes} (h : AtRest true s D)
    (hq : s.os.Quiet) (hfits : CommitFits s w) : (lsmBackend.writeTx.commit w s).1 = .ok () := by
  obtain ⟨r, s', hrun, -, ⟨rfl, -⟩ | ⟨e, -, -, hnot⟩⟩ := h.commitPending hq hfits.1
  · exact congrArg Prod.fst hrun
  · exact absurd hfits.2 hnot

/-- **Both backends tell a program the same.** In every run of calls, with names that fit, in which
no call of the operating system fails, no table is refused and every batch fits its record, every
answer of the log-structured backend is that of the in-memory backend. -/
theorem logs_eq_of_fitting (c : LsmClient) (hc : Opened c) (calls : List StorageCall)
    (hname : ∀ call ∈ calls, call.Named)
    (hfits : Run.EachStep (Client.step lsmBackend)
      (StorageBackend.Refinement.Meets CommitFits) c calls) :
    (Run.run (Client.step lsmBackend) c calls).map Client.log =
      (Run.run (Client.step memBackend) MemClient.new calls).map Client.log := by
  have hlsm : (lsmRefinement.mono fun _ _ h ↦ h.1 :
      lsmBackend.Refinement CommitFits).Inv c SerialStore.new := by
    obtain ⟨hq, hrest⟩ := hc.made.atRest
    rw [hc.new]
    exact .new ⟨hq, ∅, hrest, Contents.represents_empty⟩
  have hmem : memRefinement.Inv MemClient.new SerialStore.new := .new Mem.holds_empty
  refine StorageBackend.Refinement.logs_eq hlsm hmem (by rw [hc.new]; rfl) ?_ ?_ hname hfits ?_
  · rintro s w M ⟨hq, D, hrest, -⟩ hfits
    exact commitFits_ok hrest hq hfits
  · rintro b w M - -
    obtain ⟨b', -, hrun⟩ := exists_memCommit w b
    rw [hrun]
  · refine (Run.eachStep_true _ _ _).mono fun c call _ ↦ ?_
    cases call <;> first | trivial | exact fun _ _ ↦ trivial

end

end LsmClient

/-! ## Two programs -/

namespace LsmClient

open Lsm Lsm.Sample

/-- The condition on a call, checked for so many sections of an operation. -/
def fitsWithin (n : ℕ) (c : LsmClient) (call : StorageCall) : Bool :=
  unrefusedWithin n c (.storage call) &&
    match call with
    | .commit => c.writer.all fun w ↦ decide (⟨w.pending.entries⟩ : WalRecord).Fits
    | _ => true

theorem meets_of_within {n : ℕ} {c : LsmClient} {call : StorageCall}
    (h : fitsWithin n c call = true) : StorageBackend.Refinement.Meets CommitFits c call := by
  obtain ⟨hun, hfits⟩ := Bool.and_eq_true_iff.mp h
  have hun : Unrefused c (.storage call) := unrefused_of_within hun
  cases call with
  | commit =>
    intro w hw
    exact ⟨hun w hw, of_decide_eq_true ((Option.all_eq_true _ _).mp hfits w hw)⟩
  | _ => trivial

/-- A commit that is flushed; a deletion and a put that are flushed and merged, with a read
transaction before them; and reads, in the write transaction and outside. -/
def mergedCalls : List StorageCall :=
  [.beginWrite, .put "t" [7] [1], .put "t" [] [2], .commit, .beginRead, .beginWrite,
    .delete "t" [7], .put "u" [7] [3], .scan .writer "t" .unbounded .unbounded, .commit,
    .get (.reader 0) "t" [7], .beginRead, .range (.reader 1) "t" (.excluded []) (.excluded []),
    .get (.reader 1) "u" [7], .beginWrite, .put "u" [8] [4],
    .range .writer "u" .unbounded .unbounded, .rollback]

def allFit (s : LsmSystem) : Bool :=
  decide (Run.EachStep (Client.step lsmBackend) (fun c call ↦ fitsWithin 20 c call = true)
    (Client.new s) mergedCalls) &&
    (Run.run (Client.step lsmBackend) (Client.new s) mergedCalls).any fun c ↦
      decide (c.log.length = 18)

theorem logs_eq_of_fitting_merged : ∃ c c',
    Run.run (Client.step lsmBackend) c mergedCalls = some c' ∧ c'.log.length = 18 ∧ some c'.log =
      (Run.run (Client.step memBackend) MemClient.new mergedCalls).map Client.log := by
  have hgoes : (madeSystem eagerOptions).any allFit = true := by decide +kernel
  obtain ⟨s, hmade, hgoes⟩ := (Option.any_eq_true _ _).mp hgoes
  rw [allFit, Bool.and_eq_true, decide_eq_true_iff] at hgoes
  obtain ⟨hfits, hlen⟩ := hgoes
  obtain ⟨c', hrun, hlen⟩ := (Option.any_eq_true _ _).mp hlen
  refine ⟨Client.new s, c', hrun, of_decide_eq_true hlen, ?_⟩
  have hlogs := logs_eq_of_fitting (Client.new s) ⟨made_of_madeSystem hmade, rfl⟩ mergedCalls
    (by decide) (hfits.mono fun _ _ ↦ meets_of_within)
  rwa [hrun] at hlogs

/-- A value is put and committed. -/
def putCalls (value : Bytes) : List StorageCall := [.beginWrite, .put "t" [7] value, .commit]

/-- The batch. -/
def putPending (value : Bytes) : Pending :=
  OrdMap.insert ∅ (Keys.prefixBytes "t" ++ [7]) (some value)

theorem named_putCalls (value : Bytes) : ∀ call ∈ putCalls value, call.Named := by
  have hname : Keys.Named "t" := by decide
  intro call hcall
  simp only [putCalls, List.mem_cons, List.not_mem_nil, or_false] at hcall
  rcases hcall with rfl | rfl | rfl
  · trivial
  · exact hname
  · trivial

variable {value : Bytes}

theorem not_fits_putPending (hlen : 2 ^ 32 ≤ value.length) :
    ¬(⟨(putPending value).entries⟩ : WalRecord).Fits := by
  have hentries : (putPending value).entries = [(Keys.prefixBytes "t" ++ [7], some value)] := rfl
  rw [WalRecord.Fits, WalRecord.length_serialize, hentries, List.map_singleton,
    List.sum_singleton, WalRecord.length_encode_entry, Option.elim_some]
  omega

theorem commitPending_put (hlen : 2 ^ 32 ≤ value.length) (s : LsmSystem) :
    ∃ e, commitPending (putPending value) s = (.error e, s) := by
  rw [commitPending_eq _ rfl]
  rcases Wal.append_cases s.backend.container.file ⟨(putPending value).entries⟩ s.os with
    ⟨-, e, happend⟩ | ⟨hfits, -⟩ | ⟨hfits, -⟩ | ⟨hfits, -⟩
  · have hrun : appendRecord (putPending value) s = (.error e, s) := by
      rw [appendRecord_apply, happend]
    exact ⟨e, Effect.bind_apply_of_error hrun⟩
  all_goals exact absurd hfits (not_fits_putPending hlen)

/-- The client when the batch is written. -/
def putClient (value : Bytes) (s : LsmSystem) : LsmClient where
  backend := s
  readers := []
  writer := some { Lsm.beginWrite s.backend with pending := putPending value }
  log := [(.beginWrite, .done (.ok ())), (.put "t" [7] value, .done (.ok ()))]

theorem run_putClient (value : Bytes) (s : LsmSystem) (calls : List StorageCall) :
    Run.run (Client.step lsmBackend) (Client.new s)
      (.beginWrite :: .put "t" [7] value :: calls) =
        Run.run (Client.step lsmBackend) (putClient value s) calls := rfl

theorem step_putClient (hlen : 2 ^ 32 ≤ value.length) (s : LsmSystem) :
    ∃ e, Client.step lsmBackend (putClient value s) .commit =
      some ({ putClient value s with writer := none }.told .commit (.done (.error e))) := by
  obtain ⟨e, hrun⟩ := commitPending_put hlen s
  refine ⟨e, ?_⟩
  have hcommit : lsmBackend.writeTx.commit { Lsm.beginWrite s.backend with
      pending := putPending value } s = (.error e, s) := hrun
  rw [Client.step, putClient, Option.map_some, hcommit]

/-- **A batch that is too large for a record** is committed in memory and refused by the other. -/
theorem not_logs_eq_hugeValue : ¬∀ c : LsmClient, Opened c → ∀ calls : List StorageCall,
    (∀ call ∈ calls, call.Named) →
      Run.EachStep (Client.step lsmBackend) (fun c call ↦ Undamaged c (.storage call)) c calls →
        (Run.run (Client.step lsmBackend) c calls).map Client.log =
          (Run.run (Client.step memBackend) MemClient.new calls).map Client.log := by
  intro h
  have hsome : (madeSystem eagerOptions).any (fun s ↦ !s.os.failed) = true := by decide +kernel
  obtain ⟨s, hmade, hfailed⟩ := (Option.any_eq_true _ _).mp hsome
  rw [Bool.not_eq_true'] at hfailed
  obtain ⟨value, hlen⟩ : ∃ value : Bytes, value.length = 2 ^ 32 :=
    ⟨List.replicate (2 ^ 32) 0, List.length_replicate ..⟩
  obtain ⟨e, hcommit⟩ := step_putClient hlen.ge s
  have hlogs := h (Client.new s) ⟨made_of_madeSystem hmade, rfl⟩ (putCalls value)
    (named_putCalls value) ⟨?_, ?_⟩
  · rw [putCalls, run_putClient, Run.run, hcommit] at hlogs
    cases hlogs
  · intro c' hc'
    obtain rfl := Option.some.inj hc'
    exact hfailed
  · intro c₁ hc₁
    obtain rfl := Option.some.inj hc₁
    refine ⟨fun c' hc' ↦ ?_, fun c₂ hc₂ ↦ ⟨fun c' hc' ↦ ?_, fun _ _ ↦ trivial⟩⟩
    · obtain rfl := Option.some.inj hc'
      exact hfailed
    · obtain rfl : putClient value s = c₂ := Option.some.inj hc₂
      obtain rfl := Option.some.inj (hcommit.symm.trans hc')
      exact hfailed

end LsmClient
