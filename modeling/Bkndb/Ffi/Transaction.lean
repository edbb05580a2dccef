import Bkndb.Basic.Run
import Bkndb.Core.Error

/-!
# Transactions across the foreign boundary

`BknDbTransaction` (`transaction.rs`) and the errors it returns (`error.rs`). The open batch lives
on a worker thread; the exported object holds a handle to the worker and the message of the first
failures, each under a mutex of its own, and several threads may call it at once. A call is split
where it takes a lock: an operation checks `aborted`, runs its job under the worker lock and then
notes a failure; `commit` and `rollback` take the worker, read `aborted` and finish.

The batch and its jobs are arbitrary: a job is a function on the batch that returns a reply or an
error, and may have changed the batch before it fails.

## Interleavings

`TxSystem` is the object with the threads that share it, a place in the code for each of them, and
a log of what happened to the operations. `step` moves one thread by one lock, so a run of `step`
is an interleaving. A thread that waits for a reply from the worker waits while it holds the
worker's lock, so the exchange is one step.

## Panics

A job that panics ends the worker thread; the caller finds its reply channel closed. The batch is
dropped by the unwinding, which rolls it back, as an error does not.
-/

/-! ## Errors -/

/-- An error as the foreign caller sees it. -/
inductive FfiBknError where
  | backend (message : Message)
  | tableNotFound (table : String)
  | notFound
  | encoding (message : Message)
  | reservedTableName (table : String)
  | databaseLocked (path : String)
  | duplicateKey (table : String) (key : Message)
  | schemaMismatch (table : String) (message : Message)
  | constraintViolation (table : String) (message : Message)
  | corruption (message : Message)
  | invalidQuery (message : Message)
  | databaseClosed
  | transactionInProgress
  | transactionClosed
  | transactionAborted (message : Message)
  | invalidArgument (message : Message)

namespace FfiBknError

/-- The text of an error. -/
def toMessage : FfiBknError → Message
  | backend message => .text "Storage backend error: " :: message
  | tableNotFound table => [.text "Table not found: ", .text table]
  | notFound => [.text "Entity or key not found"]
  | encoding message => .text "Encoding/decoding error: " :: message
  | reservedTableName table => [.text "Reserved table name '", .text table, .text "'"]
  | databaseLocked path =>
    [.text "Database '", .text path, .text "' is already open by another handle or process"]
  | duplicateKey table key =>
    .text "Duplicate primary key " :: key ++ [.text " in table '", .text table, .text "'"]
  | schemaMismatch table message =>
    .text "Schema mismatch in table '" :: .text table :: .text "': " :: message
  | constraintViolation table message =>
    .text "Constraint violation in table '" :: .text table :: .text "': " :: message
  | corruption message => .text "Data corruption detected: " :: message
  | invalidQuery message => .text "Invalid query: " :: message
  | databaseClosed => [.text "The database has been closed"]
  | transactionInProgress =>
    [.text "A transaction is open on this database; use it, or commit/roll it back first"]
  | transactionClosed => [.text "The transaction has already been committed or rolled back"]
  | transactionAborted message =>
    .text "An earlier operation in this transaction failed; roll it back: " :: message
  | invalidArgument message => .text "Invalid argument: " :: message

/-- The reply channel of the worker was dropped. -/
def workerGone : FfiBknError := backend "transaction worker thread exited unexpectedly"

/-- The error of an operation, converted. A panic of the job ends the worker thread, and the caller
finds its reply channel closed. -/
def ofBknError : BknError → FfiBknError
  | .backend message => backend message
  | .tableNotFound table => tableNotFound table
  | .notFound => notFound
  | .encoding message => encoding message
  | .reservedTableName table => reservedTableName table
  | .databaseLocked path => databaseLocked path
  | .duplicateKey table key => duplicateKey table key
  | .schemaMismatch table message => schemaMismatch table message
  | .constraintViolation table message => constraintViolation table message
  | .corruption message => corruption message
  | .invalidQuery message => invalidQuery message
  | .panic _ => workerGone

end FfiBknError

/-! ## The worker

A batch is open as long as its thread lives. It ends in one of three ways: committed, rolled back,
or dropped by a panic. -/

section

variable (Batch Reply : Type)

/-- A closure shipped to the worker. -/
abbrev Job := Batch → Except BknError Reply × Batch

/-- The worker thread with its open batch, or without one once the thread has ended. -/
structure Worker where
  batch : Option Batch

end

namespace Worker

variable {Batch Reply : Type}

/-- Run a job on the worker and wait for its reply. -/
def run (w : Worker Batch) (f : Job Batch Reply) : Except FfiBknError Reply × Worker Batch :=
  match w.batch with
  | none => (.error .workerGone, w)
  | some batch =>
    match f batch with
    | (.ok reply, batch) => (.ok reply, ⟨some batch⟩)
    | (.error (.panic _), _) => (.error .workerGone, ⟨none⟩)
    | (.error e, batch) => (.error (.ofBknError e), ⟨some batch⟩)

/-- End the worker: the answer, and the batch if it was committed. Without `commit` the batch is
dropped, which rolls it back. -/
def finish (commitBatch : Batch → Except BknError Unit) (w : Worker Batch) (commit : Bool) :
    Except FfiBknError Unit × Option Batch :=
  if commit then
    match w.batch with
    | none => (.error .workerGone, none)
    | some batch =>
      match commitBatch batch with
      | .ok () => (.ok (), some batch)
      | .error e => (.error (.ofBknError e), none)
  else (.ok (), none)

end Worker

/-! ## The transaction object -/

/-- The exported object. Its first two fields are each guarded by a mutex of their own. -/
structure BknDbTransaction (Batch : Type) where
  worker : Option (Worker Batch)
  aborted : Option Message := none
  engineTxOpen : Bool := true

namespace BknDbTransaction

variable {Batch Reply : Type}

/-- Whether there is a worker whose thread has not ended. -/
def isLive (tx : BknDbTransaction Batch) : Bool := (tx.worker.bind Worker.batch).isSome

/-- Refuse every operation after a noted failure. -/
def checkUsable (tx : BknDbTransaction Batch) : Except FfiBknError Unit :=
  match tx.aborted with
  | some message => .error (.transactionAborted message)
  | none => .ok ()

/-- Whether a result is noted as a failure. -/
def isNoted : Except FfiBknError Reply → Bool
  | .ok _ => false
  | .error .transactionClosed => false
  | .error _ => true

/-- Note a failure, unless it only says that the transaction is over. -/
def noteFailure (tx : BknDbTransaction Batch) (res : Except FfiBknError Reply) :
    BknDbTransaction Batch :=
  match res with
  | .ok _ => tx
  | .error .transactionClosed => tx
  | .error e => { tx with aborted := some e.toMessage }

@[simp] theorem noteFailure_worker (tx : BknDbTransaction Batch) (res : Except FfiBknError Reply) :
    (tx.noteFailure res).worker = tx.worker := by
  rcases res with e | r
  · cases e <;> rfl
  · rfl

theorem noteFailure_aborted_ne_none (tx : BknDbTransaction Batch) {res : Except FfiBknError Reply}
    (h : isNoted res) : (tx.noteFailure res).aborted ≠ none := by
  rcases res with e | r
  · cases e <;> simp_all [noteFailure, isNoted]
  · simp [isNoted] at h

theorem noteFailure_of_not_isNoted (tx : BknDbTransaction Batch) {res : Except FfiBknError Reply}
    (h : ¬isNoted res) : tx.noteFailure res = tx := by
  rcases res with e | r
  · cases e <;> simp_all [noteFailure, isNoted]
  · rfl

/-- The worker step of `in_tx!`: run the job if the worker is still there. -/
def runJob (tx : BknDbTransaction Batch) (f : Job Batch Reply) :
    Except FfiBknError Reply × BknDbTransaction Batch :=
  match tx.worker with
  | some w => ((w.run f).1, { tx with worker := some (w.run f).2 })
  | none => (.error .transactionClosed, tx)

/-- The last step of `end`: a commit that has read a noted failure drops the worker. -/
def finishWorker (commitBatch : Batch → Except BknError Unit) (commit : Bool) (w : Worker Batch)
    (aborted : Option Message) : Except FfiBknError Unit × Option Batch :=
  match commit, aborted with
  | true, some message => (.error (.transactionAborted message), none)
  | commit, _ => w.finish commitBatch commit

theorem finishWorker_of_ok (commitBatch : Batch → Except BknError Unit) {commit : Bool}
    (w : Worker Batch) {aborted : Option Message} (hcommit : ¬(commit = true ∧ aborted = none)) :
    (finishWorker commitBatch commit w aborted).2 = none ∧
      (commit = true → (finishWorker commitBatch commit w aborted).1 ≠ .ok ()) := by
  cases commit with
  | false => exact ⟨rfl, by simp⟩
  | true =>
    cases aborted with
    | none => simp at hcommit
    | some message => exact ⟨rfl, fun _ ↦ by simp [finishWorker]⟩

/-- `rollback` of a transaction that is over succeeds. -/
def endResult (commit : Bool) (res : Except FfiBknError Unit) : Except FfiBknError Unit :=
  match commit, res with
  | false, .error .transactionClosed => .ok ()
  | _, res => res

end BknDbTransaction

/-! ## Threads

The log keeps the operations in the order in which they reached the worker, or were refused before
they did; the abort rule is a statement about the log. -/

section

variable (Batch Reply : Type)

/-- Why a call is turned down before it takes any lock: its schema does not build, or its arguments
do not make a query. -/
inductive Refusal where
  | build (e : BknError)
  | invalid (message : Message)

/-- A call of the exported object. Some operations first convert their arguments. -/
inductive Call where
  | op (args : Except Refusal Unit) (job : Job Batch Reply)
  | commit
  | rollback

/-- What a call returned. -/
inductive Returned where
  | op (res : Except FfiBknError Reply)
  | ended (commit : Bool) (res : Except FfiBknError Unit)

/-- Where a thread stands: the step it takes next. -/
inductive Pc where
  | idle
  | checkUsable (job : Job Batch Reply)
  | runJob (job : Job Batch Reply)
  | noteFailure (res : Except FfiBknError Reply)
  | takeWorker (commit : Bool)
  | readAborted (commit : Bool) (worker : Worker Batch)
  | finish (commit : Bool) (worker : Worker Batch) (aborted : Option Message)
  | clearTxOpen (commit : Bool) (res : Except FfiBknError Unit)
  | returned (res : Returned Reply)

/-- One thread's move: begin a call, or take the next step of the call it is in. -/
inductive Move where
  | call (c : Call Batch Reply)
  | advance

end

/-- The error a refused call returns. -/
def Refusal.toFfi : Refusal → FfiBknError
  | build e => .ofBknError e
  | invalid message => .invalidArgument message

/-- The thread goes on with the call it is in. -/
def Move.isAdvance {Batch Reply : Type} : Move Batch Reply → Bool
  | .call _ => false
  | .advance => true

/-- What happened to an operation: its job ran on the worker, or its arguments were refused. -/
inductive Event where
  | ran (ok : Bool)
  | refused
  deriving DecidableEq

/-- The operation failed. -/
def Event.failed : Event → Bool
  | ran ok => !ok
  | refused => true

/-- The operation ran on the worker. -/
def Event.onWorker : Event → Bool
  | ran _ => true
  | refused => false

/-- The object, the threads that share it, what happened to the operations so far, oldest first, and
the batch that was made durable. -/
structure TxSystem (Tid Batch Reply : Type) where
  tx : BknDbTransaction Batch
  pc : Tid → Pc Batch Reply := fun _ ↦ .idle
  log : List Event := []
  durable : Option Batch := none

namespace TxSystem

variable {Tid Batch Reply : Type} [DecidableEq Tid] (commitBatch : Batch → Except BknError Unit)

/-- The system right after `begin_transaction`. -/
def init (batch : Batch) : TxSystem Tid Batch Reply where
  tx := { worker := some ⟨some batch⟩ }

/-- Move a thread on. -/
def goto (s : TxSystem Tid Batch Reply) (t : Tid) (pc : Pc Batch Reply) :
    TxSystem Tid Batch Reply :=
  { s with pc := Function.update s.pc t pc }

@[simp] theorem goto_tx (s : TxSystem Tid Batch Reply) (t : Tid) (pc : Pc Batch Reply) :
    (s.goto t pc).tx = s.tx := rfl

@[simp] theorem goto_log (s : TxSystem Tid Batch Reply) (t : Tid) (pc : Pc Batch Reply) :
    (s.goto t pc).log = s.log := rfl

/-- Record what happened to an operation. -/
def record (s : TxSystem Tid Batch Reply) (e : Event) : TxSystem Tid Batch Reply :=
  { s with log := s.log ++ [e] }

/-- Whether a thread is between calls. -/
def isIdle (s : TxSystem Tid Batch Reply) (t : Tid) : Bool :=
  match s.pc t with
  | .idle | .returned _ => true
  | _ => false

/-- Begin a call. A refused one goes straight to noting its failure. -/
def begin (s : TxSystem Tid Batch Reply) (t : Tid) : Call Batch Reply → TxSystem Tid Batch Reply
  | .op (.ok ()) job => s.goto t (.checkUsable job)
  | .op (.error r) _ => (s.record .refused).goto t (.noteFailure (.error r.toFfi))
  | .commit => s.goto t (.takeWorker true)
  | .rollback => s.goto t (.takeWorker false)

/-- The event of a worker step: none if there is no live worker to run the job. -/
def ranEvent (s : TxSystem Tid Batch Reply) (job : Job Batch Reply) : List Event :=
  match s.tx.worker with
  | some ⟨some batch⟩ => [.ran (job batch).1.toBool]
  | _ => []

/-- Take the next step of the call a thread is in. -/
def advance (s : TxSystem Tid Batch Reply) (t : Tid) : Option (TxSystem Tid Batch Reply) :=
  match s.pc t with
  | .idle | .returned _ => none
  | .checkUsable job =>
    match s.tx.checkUsable with
    | .ok () => some (s.goto t (.runJob job))
    | .error e => some (s.goto t (.returned (.op (.error e))))
  | .runJob job =>
    some (({ s with tx := (s.tx.runJob job).2, log := s.log ++ s.ranEvent job } : TxSystem _ _ _).goto
      t (.noteFailure (s.tx.runJob job).1))
  | .noteFailure res =>
    some (({ s with tx := s.tx.noteFailure res } : TxSystem _ _ _).goto t (.returned (.op res)))
  | .takeWorker commit =>
    match s.tx.worker with
    | some w =>
      some (({ s with tx := { s.tx with worker := none } } : TxSystem _ _ _).goto
        t (.readAborted commit w))
    | none =>
      some (s.goto t (.returned
        (.ended commit (BknDbTransaction.endResult commit (.error .transactionClosed)))))
  | .readAborted commit w => some (s.goto t (.finish commit w s.tx.aborted))
  | .finish commit w aborted =>
    let r := BknDbTransaction.finishWorker commitBatch commit w aborted
    some (({ s with durable := r.2.or s.durable } : TxSystem _ _ _).goto t (.clearTxOpen commit r.1))
  | .clearTxOpen commit res =>
    some (({ s with tx := { s.tx with engineTxOpen := false } } : TxSystem _ _ _).goto
      t (.returned (.ended commit (BknDbTransaction.endResult commit res))))

/-- One step of one thread. -/
def step (s : TxSystem Tid Batch Reply) (a : Tid × Move Batch Reply) :
    Option (TxSystem Tid Batch Reply) :=
  match a.2 with
  | .call c => if s.isIdle a.1 then some (s.begin a.1 c) else none
  | .advance => s.advance commitBatch a.1

end TxSystem
