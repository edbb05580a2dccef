import Bkndb.Basic.Effect
import Bkndb.Basic.Run
import Bkndb.Lsm.Contents

/-!
# Clients of a storage backend

`storage.rs`: what a backend offers to the layers above it. A client begins transactions, reads
through them, writes through the one write transaction that may be open, and commits it. It keeps
what it has asked and what it was told, call by call.

## What a backend is for

The answers are compared with those of a map for each table. A begin copies the map, a put or a
delete changes one entry of the copy that the write transaction has, and a commit that returns `Ok`
puts that copy in the place of the map; a commit that returns an error leaves it. `SerialStore`
replays a log of calls and answers and stops at the first answer that the map does not give.

A client that is blocked, by a second write transaction or for want of a transaction, has no next
state.
-/

structure StorageReadTx (T : Type) where
  get : T → String → Bytes → Except BknError (Option Bytes)
  range : T → String → Bound Bytes → Bound Bytes → Except BknError (List (Bytes × Bytes))
  /-- The rows of `range`, one at a time. -/
  scan : T → String → Bound Bytes → Bound Bytes →
    Except BknError (List (Except BknError (Bytes × Bytes)))

structure StorageWriteTx (B T : Type) extends StorageReadTx T where
  put : T → String → Bytes → Bytes → Except BknError T
  delete : T → String → Bytes → Except BknError T
  commit : T → Effect B BknError Unit

/-- A backend with states `B`, read transactions `R` and write transactions `W`. -/
structure StorageBackend (B R W : Type) where
  readTx : StorageReadTx R
  writeTx : StorageWriteTx B W
  beginRead : B → R
  beginWrite : B → W

/-- A transaction: the write transaction, or a read transaction by its number. -/
inductive TxRef where
  | writer
  | reader (i : ℕ)

inductive StorageCall where
  | beginRead
  | beginWrite
  | get (tx : TxRef) (table : String) (key : Bytes)
  | range (tx : TxRef) (table : String) (start stop : Bound Bytes)
  | scan (tx : TxRef) (table : String) (start stop : Bound Bytes)
  | put (table : String) (key value : Bytes)
  | delete (table : String) (key : Bytes)
  | commit
  /-- The write transaction is dropped. -/
  | rollback

inductive StorageAnswer where
  | done (r : Except BknError Unit)
  | value (r : Except BknError (Option Bytes))
  | rows (r : Except BknError (List (Bytes × Bytes)))
  | stream (r : Except BknError (List (Except BknError (Bytes × Bytes))))

/-- The name of the table, if the call has one, fits its length byte. -/
def StorageCall.Named : StorageCall → Prop
  | .get _ table _ | .range _ table _ _ | .scan _ table _ _ | .put table _ _ | .delete table _ =>
    Keys.Named table
  | .beginRead | .beginWrite | .commit | .rollback => True

instance : (call : StorageCall) → Decidable call.Named
  | .get _ table _ | .range _ table _ _ | .scan _ table _ _ | .put table _ _ | .delete table _ =>
    inferInstanceAs (Decidable (Keys.Named table))
  | .beginRead | .beginWrite | .commit | .rollback => .isTrue trivial

/-- What a client has asked and what it was told. -/
abbrev StorageLog := List (StorageCall × StorageAnswer)

structure Client (B R W : Type) where
  backend : B
  readers : List R
  /-- The write transaction. It holds the writer lock until its commit returns. -/
  writer : Option W
  log : StorageLog

namespace Client

variable {B R W : Type}

def new (b : B) : Client B R W := ⟨b, [], none, []⟩

def told (c : Client B R W) (call : StorageCall) (answer : StorageAnswer) : Client B R W :=
  { c with log := c.log ++ [(call, answer)] }

/-- Ask a transaction that is open. -/
def ask (S : StorageBackend B R W) (c : Client B R W) (tx : TxRef) (call : StorageCall)
    (read : {T : Type} → StorageReadTx T → T → StorageAnswer) : Option (Client B R W) :=
  match tx with
  | .writer => c.writer.map fun w ↦ c.told call (read S.writeTx.toStorageReadTx w)
  | .reader i => c.readers[i]?.map fun r ↦ c.told call (read S.readTx r)

/-- A call of the write transaction that changes it, if it does not fail. -/
def write (c : Client B R W) (call : StorageCall) (change : W → Except BknError W) :
    Option (Client B R W) :=
  c.writer.map fun w ↦
    match change w with
    | .ok w' => { c with writer := some w' }.told call (.done (.ok ()))
    | .error e => c.told call (.done (.error e))

def step (S : StorageBackend B R W) (c : Client B R W) (call : StorageCall) :
    Option (Client B R W) :=
  match call with
  | .beginRead =>
    some ({ c with readers := c.readers ++ [S.beginRead c.backend] }.told call (.done (.ok ())))
  | .beginWrite =>
    match c.writer with
    | none => some ({ c with writer := some (S.beginWrite c.backend) }.told call (.done (.ok ())))
    | some _ => none
  | .get tx table key => c.ask S tx call fun s t ↦ .value (s.get t table key)
  | .range tx table start stop => c.ask S tx call fun s t ↦ .rows (s.range t table start stop)
  | .scan tx table start stop => c.ask S tx call fun s t ↦ .stream (s.scan t table start stop)
  | .put table key value => c.write call fun w ↦ S.writeTx.put w table key value
  | .delete table key => c.write call fun w ↦ S.writeTx.delete w table key
  | .commit =>
    c.writer.map fun w ↦
      { c with
        backend := (S.writeTx.commit w c.backend).2
        writer := none }.told call (.done (S.writeTx.commit w c.backend).1)
  | .rollback => c.writer.map fun _ ↦ { c with writer := none }.told call (.done (.ok ()))

end Client

/-! ## The map for each table -/

/-- The map, and for each open transaction the map that it sees. -/
structure SerialStore where
  contents : Contents
  readers : List Contents
  writer : Option Contents

namespace SerialStore

def new : SerialStore := ⟨fun _ ↦ ∅, [], none⟩

/-- What a transaction sees. -/
def sees (i : SerialStore) : TxRef → Option Contents
  | .writer => i.writer
  | .reader n => i.readers[n]?

/-- What a call gives and leaves when its commit, if it is one, returns `Ok`. -/
def step (i : SerialStore) : StorageCall → Option (StorageAnswer × SerialStore)
  | .beginRead => some (.done (.ok ()), { i with readers := i.readers ++ [i.contents] })
  | .beginWrite =>
    match i.writer with
    | none => some (.done (.ok ()), { i with writer := some i.contents })
    | some _ => none
  | .get tx table key => (i.sees tx).map fun M ↦ (.value (.ok ((M table).get? key)), i)
  | .range tx table start stop =>
    (i.sees tx).map fun M ↦ (.rows (.ok ((M table).range start stop)), i)
  | .scan tx table start stop =>
    (i.sees tx).map fun M ↦ (.stream (.ok (((M table).range start stop).map .ok)), i)
  | .put table key value =>
    i.writer.map fun M ↦ (.done (.ok ()), { i with writer := some (M.put table key value) })
  | .delete table key =>
    i.writer.map fun M ↦ (.done (.ok ()), { i with writer := some (M.delete table key) })
  | .commit => i.writer.map fun M ↦ (.done (.ok ()), { i with contents := M, writer := none })
  | .rollback => i.writer.map fun _ ↦ (.done (.ok ()), { i with writer := none })

/-- **An answer is right** if it is the one that the map gives; a commit may be refused, and then
the map stays. -/
inductive Gives : SerialStore → StorageCall → StorageAnswer → SerialStore → Prop
  | same {i i' : SerialStore} {call : StorageCall} {answer : StorageAnswer}
    (h : i.step call = some (answer, i')) : Gives i call answer i'
  | refused {i : SerialStore} {M : Contents} {e : BknError} (h : i.writer = some M) :
    Gives i .commit (.done (.error e)) { i with writer := none }

/-- **A log is right** up to a state of the map. -/
inductive Explains : StorageLog → SerialStore → Prop
  | nil : Explains [] new
  | snoc {log : StorageLog} {i i' : SerialStore} {call : StorageCall} {answer : StorageAnswer}
    (h : Explains log i) (hgives : i.Gives call answer i') : Explains (log ++ [(call, answer)]) i'

theorem explains_snoc {log : StorageLog} {i' : SerialStore} {call : StorageCall}
    {answer : StorageAnswer} : Explains (log ++ [(call, answer)]) i' ↔
      ∃ i, Explains log i ∧ i.Gives call answer i' := by
  refine ⟨fun h ↦ ?_, fun ⟨i, h, hgives⟩ ↦ .snoc h hgives⟩
  generalize hlog : log ++ [(call, answer)] = l at h
  cases h with
  | nil => exact absurd hlog (by simp)
  | snoc h hgives =>
    obtain ⟨rfl, hlast⟩ := List.append_inj' hlog rfl
    cases hlast
    exact ⟨_, h, hgives⟩

/-- But for a commit that is refused, the answer is what the map gives. -/
theorem Gives.step {i i' : SerialStore} {call : StorageCall} {answer : StorageAnswer}
    (h : i.Gives call answer i') (hne : call ≠ .commit) : i.step call = some (answer, i') := by
  cases h with
  | same h => exact h
  | refused h => exact absurd rfl hne

end SerialStore

/-! ## Backends that stand for the map

What a backend has to show: which of its states stand for which map, and which of its transactions
see which map. The condition is asked of a commit in the state before it. -/

/-- The states and transactions of a backend stand for maps. -/
structure StorageBackend.Refinement {B R W : Type} (S : StorageBackend B R W)
    (cond : B → W → Prop) where
  committed : B → Contents → Prop
  reading : R → Contents → Prop
  /-- The map under the writes of the transaction, while the backend is in this state. -/
  writing : B → W → Contents → Prop
  beginRead : ∀ {b M}, committed b M → reading (S.beginRead b) M
  beginWrite : ∀ {b M}, committed b M → writing b (S.beginWrite b) M
  readAnswers : ∀ {r M}, reading r M →
    M.Answers (S.readTx.get r) (S.readTx.scan r) (S.readTx.range r)
  writeAnswers : ∀ {b w M}, writing b w M →
    M.Answers (S.writeTx.get w) (S.writeTx.scan w) (S.writeTx.range w)
  put : ∀ {b w M table}, writing b w M → Keys.Named table → ∀ key value,
    ∃ w', S.writeTx.put w table key value = .ok w' ∧ writing b w' (M.put table key value)
  delete : ∀ {b w M table}, writing b w M → Keys.Named table → ∀ key,
    ∃ w', S.writeTx.delete w table key = .ok w' ∧ writing b w' (M.delete table key)
  commit_ok : ∀ {b b' w M}, writing b w M → cond b w → S.writeTx.commit w b = (.ok (), b') →
    committed b' M
  commit_error : ∀ {b b' w M e}, committed b M → cond b w →
    S.writeTx.commit w b = (.error e, b') → committed b' M

namespace StorageBackend.Refinement

variable {B R W : Type} {S : StorageBackend B R W} {cond : B → W → Prop} (F : S.Refinement cond)
  {c : Client B R W} {i : SerialStore} {call : StorageCall}

/-- The client stands where the map is, and its log is right. -/
structure Inv (c : Client B R W) (i : SerialStore) : Prop where
  committed : F.committed c.backend i.contents
  readers : List.Forall₂ F.reading c.readers i.readers
  writer : Option.Rel (F.writing c.backend) c.writer i.writer
  log : SerialStore.Explains c.log i

/-- A commit meets the condition. -/
def Meets (cond : B → W → Prop) (c : Client B R W) : StorageCall → Prop
  | .commit => ∀ w, c.writer = some w → cond c.backend w
  | _ => True

/-- How a call ends: the client and the map are both blocked, or the answer is right. -/
def Agrees (c : Client B R W) (i : SerialStore) (call : StorageCall) : Prop :=
  (c.step S call = none ∧ i.step call = none) ∨
    ∃ c' answer i', c.step S call = some c' ∧ (i.step call).isSome = true ∧
      i.Gives call answer i' ∧ c'.log = c.log ++ [(call, answer)] ∧ F.Inv c' i'

variable {F}

/-- The same under a stronger condition. -/
def mono (F : S.Refinement cond) {cond' : B → W → Prop} (h : ∀ b w, cond' b w → cond b w) :
    S.Refinement cond' :=
  { F with
    commit_ok := fun hw hcond ↦ F.commit_ok hw (h _ _ hcond)
    commit_error := fun hb hcond ↦ F.commit_error hb (h _ _ hcond) }

theorem Inv.new {b : B} (h : F.committed b fun _ ↦ ∅) : F.Inv (Client.new b) SerialStore.new :=
  ⟨h, .nil, .none, .nil⟩

theorem Inv.told (h : F.Inv c i) {answer : StorageAnswer} {i' : SerialStore}
    (hgives : i.Gives call answer i') {c' : Client B R W} (hlog : c'.log = c.log)
    (hb : F.committed c'.backend i'.contents) (hr : List.Forall₂ F.reading c'.readers i'.readers)
    (hw : Option.Rel (F.writing c'.backend) c'.writer i'.writer) :
    F.Inv (c'.told call answer) i' := by
  refine ⟨hb, hr, hw, ?_⟩
  change SerialStore.Explains (c'.log ++ [(call, answer)]) i'
  rw [hlog]
  exact .snoc h.log hgives

theorem Inv.writer_cases (h : F.Inv c i) : (c.writer = none ∧ i.writer = none) ∨
    ∃ w M, c.writer = some w ∧ i.writer = some M ∧ F.writing c.backend w M := by
  have hwriter := h.writer
  cases hc : c.writer with
  | none =>
    rw [hc] at hwriter
    cases hi : i.writer with
    | none => exact .inl ⟨rfl, rfl⟩
    | some M => rw [hi] at hwriter; cases hwriter
  | some w =>
    rw [hc] at hwriter
    cases hi : i.writer with
    | none => rw [hi] at hwriter; cases hwriter
    | some M =>
      rw [hi] at hwriter
      obtain ⟨hwriting⟩ := hwriter
      exact .inr ⟨w, M, rfl, rfl, hwriting⟩

/-- **A question** to an open transaction gets the map's answer. -/
theorem Inv.ask (h : F.Inv c i) {tx : TxRef}
    {read : {T : Type} → StorageReadTx T → T → StorageAnswer} {answer : Contents → StorageAnswer}
    (hstep : c.step S call = c.ask S tx call read)
    (hserial : i.step call = (i.sees tx).map fun M ↦ (answer M, i))
    (hread : ∀ {T : Type} (s : StorageReadTx T) (t : T) (M : Contents),
      M.Answers (s.get t) (s.scan t) (s.range t) → read s t = answer M) : F.Agrees c i call := by
  have hgoes : ∀ {T : Type} (s : StorageReadTx T) (t : T) (M : Contents),
      M.Answers (s.get t) (s.scan t) (s.range t) → c.step S call = some (c.told call (read s t)) →
        i.sees tx = some M → F.Agrees c i call := by
    intro T s t M hanswers hsome hsees
    rw [hread s t M hanswers] at hsome
    have hnext : i.step call = some (answer M, i) := by
      rw [hserial, hsees]
      rfl
    refine .inr ⟨_, answer M, i, hsome, by rw [hnext]; rfl, .same hnext, rfl, ?_⟩
    exact h.told (.same hnext) rfl h.committed h.readers h.writer
  cases tx with
  | writer =>
    rcases h.writer_cases with ⟨hc, hi⟩ | ⟨w, M, hc, hi, hwriting⟩
    · exact .inl ⟨by rw [hstep, Client.ask, hc]; rfl, by rw [hserial, SerialStore.sees, hi]; rfl⟩
    · exact hgoes S.writeTx.toStorageReadTx w M (F.writeAnswers hwriting)
        (by rw [hstep, Client.ask, hc]; rfl) hi
  | reader n =>
    have hlen := h.readers.length_eq
    by_cases hn : n < c.readers.length
    · have hr := List.getElem?_eq_getElem hn
      have hM := List.getElem?_eq_getElem (hlen ▸ hn)
      have hreading := (List.forall₂_iff_get.mp h.readers).2 n hn (hlen ▸ hn)
      exact hgoes S.readTx _ _ (F.readAnswers hreading) (by rw [hstep, Client.ask, hr]; rfl) hM
    · have hr := List.getElem?_eq_none (not_lt.mp hn)
      have hM := List.getElem?_eq_none (hlen ▸ not_lt.mp hn)
      exact .inl ⟨by rw [hstep, Client.ask, hr]; rfl, by rw [hserial, SerialStore.sees, hM]; rfl⟩

/-- **A write** goes into the transaction. -/
theorem Inv.write (h : F.Inv c i) {change : W → Except BknError W} {change' : Contents → Contents}
    (hstep : c.step S call = c.write call change)
    (hserial : i.step call = i.writer.map fun M ↦
      (.done (.ok ()), { i with writer := some (change' M) }))
    (hchange : ∀ {w M}, F.writing c.backend w M →
      ∃ w', change w = .ok w' ∧ F.writing c.backend w' (change' M)) : F.Agrees c i call := by
  rcases h.writer_cases with ⟨hc, hi⟩ | ⟨w, M, hc, hi, hwriting⟩
  · exact .inl ⟨by rw [hstep, Client.write, hc]; rfl, by rw [hserial, hi]; rfl⟩
  · obtain ⟨w', hw', hwriting'⟩ := hchange hwriting
    have hnext : i.step call = some (.done (.ok ()), { i with writer := some (change' M) }) := by
      rw [hserial, hi]
      rfl
    refine .inr ⟨{ c with writer := some w' }.told call (.done (.ok ())), _, _, ?_,
      by rw [hnext]; rfl, .same hnext, rfl, ?_⟩
    · rw [hstep, Client.write, hc, Option.map_some, hw']
    · exact h.told (.same hnext) rfl h.committed h.readers (.some hwriting')

/-- **A commit** that returns `Ok` puts its map in the place of the old one. -/
theorem Inv.commit (h : F.Inv c i) (hmeets : Meets cond c .commit) : F.Agrees c i .commit := by
  rcases h.writer_cases with ⟨hc, hi⟩ | ⟨w, M, hc, hi, hwriting⟩
  · exact .inl ⟨by rw [Client.step, hc]; rfl, by rw [SerialStore.step, hi]; rfl⟩
  · have hnext : i.step .commit =
        some (.done (.ok ()), { i with contents := M, writer := none }) := by
      rw [SerialStore.step, hi]
      rfl
    have hcond := hmeets w hc
    rcases hrun : S.writeTx.commit w c.backend with ⟨e | ⟨⟨⟩⟩, b'⟩
    · refine .inr ⟨{ c with backend := b', writer := none }.told .commit (.done (.error e)), _, _,
        by rw [Client.step, hc, Option.map_some, hrun], by rw [hnext]; rfl, .refused hi, rfl, ?_⟩
      exact h.told (.refused hi) rfl (F.commit_error h.committed hcond hrun) h.readers .none
    · refine .inr ⟨{ c with backend := b', writer := none }.told .commit (.done (.ok ())), _, _,
        by rw [Client.step, hc, Option.map_some, hrun], by rw [hnext]; rfl, .same hnext, rfl, ?_⟩
      exact h.told (.same hnext) rfl (F.commit_ok hwriting hcond hrun) h.readers .none

/-- **Every call** gets the map's answer. -/
theorem Inv.step (h : F.Inv c i) (hname : call.Named) (hmeets : Meets cond c call) :
    F.Agrees c i call := by
  cases call with
  | beginRead =>
    have hgives : i.Gives .beginRead (.done (.ok ()))
        { i with readers := i.readers ++ [i.contents] } := .same rfl
    refine .inr ⟨_, _, _, rfl, rfl, hgives, rfl, h.told hgives rfl h.committed ?_ h.writer⟩
    exact List.rel_append h.readers (.cons (F.beginRead h.committed) .nil)
  | beginWrite =>
    rcases h.writer_cases with ⟨hc, hi⟩ | ⟨w, M, hc, hi, -⟩
    · have hnext : i.step .beginWrite =
          some (.done (.ok ()), { i with writer := some i.contents }) := by
          rw [SerialStore.step, hi]
      refine .inr ⟨{ c with writer := some (S.beginWrite c.backend) }.told .beginWrite
        (.done (.ok ())), _, _, by rw [Client.step, hc], by rw [hnext]; rfl, .same hnext, rfl, ?_⟩
      exact h.told (.same hnext) rfl h.committed h.readers (.some (F.beginWrite h.committed))
    · exact .inl ⟨by rw [Client.step, hc], by rw [SerialStore.step, hi]⟩
  | get tx table key =>
    exact h.ask rfl rfl fun s t M hanswers ↦
      congrArg StorageAnswer.value (hanswers.get_eq table hname key)
  | range tx table start stop =>
    exact h.ask rfl rfl fun s t M hanswers ↦
      congrArg StorageAnswer.rows (hanswers.range_eq table hname start stop)
  | scan tx table start stop =>
    exact h.ask rfl rfl fun s t M hanswers ↦
      congrArg StorageAnswer.stream (hanswers.scan_eq table hname start stop)
  | put table key value => exact h.write rfl rfl fun hw ↦ F.put hw hname key value
  | delete table key => exact h.write rfl rfl fun hw ↦ F.delete hw hname key
  | commit => exact h.commit hmeets
  | rollback =>
    rcases h.writer_cases with ⟨hc, hi⟩ | ⟨w, M, hc, hi, -⟩
    · exact .inl ⟨by rw [Client.step, hc]; rfl, by rw [SerialStore.step, hi]; rfl⟩
    · have hnext : i.step .rollback = some (.done (.ok ()), { i with writer := none }) := by
        rw [SerialStore.step, hi]
        rfl
      refine .inr ⟨{ c with writer := none }.told .rollback (.done (.ok ())), _, _,
        by rw [Client.step, hc]; rfl, by rw [hnext]; rfl, .same hnext, rfl, ?_⟩
      exact h.told (.same hnext) rfl h.committed h.readers .none

/-! ## Two backends

Two backends that stand for the same map tell a client the same, if neither refuses a commit. -/

section

variable {B' R' W' : Type} {S' : StorageBackend B' R' W'} {cond' : B' → W' → Prop}
  {F' : S'.Refinement cond'} {c' : Client B' R' W'}

/-- Where no commit is refused, the answer is what the map gives. -/
theorem Inv.exists_step (h : F.Inv c i) (hname : call.Named) (hmeets : Meets cond c call)
    (hok : ∀ {b w M}, F.writing b w M → cond b w → (S.writeTx.commit w b).1 = .ok ()) :
    (c.step S call = none ∧ i.step call = none) ∨
      ∃ c₁ answer i₁, c.step S call = some c₁ ∧ i.step call = some (answer, i₁) ∧
        c₁.log = c.log ++ [(call, answer)] ∧ F.Inv c₁ i₁ := by
  rcases h.step hname hmeets with hnone | ⟨c₁, answer, i₁, hsome, -, hgives, hlog, hinv⟩
  · exact .inl hnone
  · refine .inr ⟨c₁, answer, i₁, hsome, ?_, hlog, hinv⟩
    cases hgives with
    | same hgives => exact hgives
    | @refused M e hi =>
      -- the answer of a commit is in the log
      obtain ⟨-, hi'⟩ | ⟨w, M', hw, -, hwriting⟩ := h.writer_cases
      · rw [hi'] at hi
        cases hi
      · rw [Client.step, hw, Option.map_some] at hsome
        obtain rfl := Option.some.inj hsome
        have hlast := (List.append_inj' hlog rfl).2
        rw [hok hwriting (hmeets w hw)] at hlast
        cases hlast

/-- **The same program is told the same.** -/
theorem logs_eq (h : F.Inv c i) (h' : F'.Inv c' i) (hlog : c.log = c'.log)
    (hok : ∀ {b w M}, F.writing b w M → cond b w → (S.writeTx.commit w b).1 = .ok ())
    (hok' : ∀ {b w M}, F'.writing b w M → cond' b w → (S'.writeTx.commit w b).1 = .ok ())
    {calls : List StorageCall} (hname : ∀ call ∈ calls, call.Named)
    (hmeets : Run.EachStep (Client.step S) (Meets cond) c calls)
    (hmeets' : Run.EachStep (Client.step S') (Meets cond') c' calls) :
    (Run.run (Client.step S) c calls).map Client.log =
      (Run.run (Client.step S') c' calls).map Client.log := by
  induction calls generalizing c c' i with
  | nil => exact congrArg some hlog
  | cons call calls ih =>
    have hcall := hname call List.mem_cons_self
    rw [Run.run, Run.run]
    have hgives := h.exists_step hcall hmeets.1 hok
    have hgives' := h'.exists_step hcall hmeets'.1 hok'
    obtain ⟨hnone, hi⟩ | ⟨c₁, answer, i₁, hsome, hi, hlog₁, hinv⟩ := hgives
    · obtain ⟨hnone', -⟩ | ⟨_, _, _, -, hi', -⟩ := hgives'
      · rw [hnone, hnone']
        rfl
      · cases hi.symm.trans hi'
    · obtain ⟨-, hi'⟩ | ⟨c₂, answer', i₂, hsome', hi', hlog₂, hinv'⟩ := hgives'
      · cases hi.symm.trans hi'
      · obtain ⟨rfl, rfl⟩ := Prod.mk.inj (Option.some.inj (hi.symm.trans hi'))
        rw [hsome, hsome']
        exact ih hinv hinv' (by rw [hlog₁, hlog₂, hlog])
          (fun call' hmem ↦ hname call' (List.mem_cons_of_mem _ hmem)) (hmeets.2 c₁ hsome)
          (hmeets'.2 c₂ hsome')

end

end StorageBackend.Refinement
