import Bkndb.Basic.Effect
import Bkndb.Basic.File

/-!
# Files of an operating system that may fail

Files are inodes; names point at them, and a file that has lost its name goes on for those who
have it open. Each call is answered from a plan: it is done, or it fails, a failed write after some
of its bytes. Whatever the plan, a write that would take a file past the largest length fails. Beside
its contents a file has those that a completed sync covers.

## The plan

A plan lists the answers to the calls to come, and when it is used up every call is done. A
statement about "whatever fails" quantifies over plans; one about a run without failures assumes
`Quiet`. A write is the one call that may do a part of its work before it fails: a part that is
never the whole (`writeAll`), or one that may be (`writeBuffered`).

## Frames

What a computation leaves alone is stated three times, each time more widely: `Touches` is about
one inode, `Beside` about one name, and `Within` about a set of names and the files they lead to.
All three are closed under sequencing, so the frame of a long computation is that of its calls.
-/

/-- How a call is answered. -/
inductive Answer where
  | done
  /-- The call fails; a write has put down this many bytes. -/
  | fail (written : ℕ)
  deriving DecidableEq

structure Inode where
  contents : Bytes := []
  /-- What the last completed sync covers. -/
  durable : Bytes := []
  deriving DecidableEq

structure Os where
  inodes : ℕ → Inode := fun _ ↦ {}
  /-- The first number not yet given to a file. -/
  next : ℕ := 0
  names : String → Option ℕ := fun _ ↦ none
  /-- The answers to the calls to come; every call after them is done. -/
  plan : List Answer := []
  /-- Some call has failed. -/
  failed : Bool := false

namespace Os

variable {ε : Type}

/-- The largest length of a file. -/
def maxLen : ℕ := 2 ^ 63 - 1

def contents (os : Os) (i : ℕ) : Bytes := (os.inodes i).contents

/-- Take the next answer off the plan. -/
def pop (os : Os) : Os := { os with plan := os.plan.tail }

def answer (os : Os) : Answer := os.plan.headD .done

def setInode (os : Os) (i : ℕ) (f : Inode) : Os :=
  { os with inodes := Function.update os.inodes i f }

/-- Change the contents of a file. -/
def setContents (os : Os) (i : ℕ) (b : Bytes) : Os :=
  os.setInode i { os.inodes i with contents := b }

/-- Answer the calls to come by another plan. -/
def withPlan (os : Os) (plan : List Answer) : Os := { os with plan }

def fail (os : Os) : Os := { os with failed := true }

/-- A call that has no effect on a file: metadata, seek, lock, map, opening a directory. -/
def call (e : ε) : Effect Os ε Unit := fun os ↦
  match os.answer with
  | .done => (.ok (), os.pop)
  | .fail _ => (.error e, os.pop.fail)

/-- The length of a file. -/
def fileLen (e : ε) (i : ℕ) : Effect Os ε ℕ := do
  call e
  let os ← Effect.get
  return (os.contents i).length

/-- What is in a file. -/
def read (e : ε) (i : ℕ) : Effect Os ε Bytes := do
  call e
  let os ← Effect.get
  return os.contents i

/-- Write bytes at an offset. A write that fails has put down a part of them; `whole` says whether
that part may be all of them. -/
def writeWith (whole : Bool) (e : ε) (i off : ℕ) (b : Bytes) : Effect Os ε Unit := fun os ↦
  let put (n : ℕ) := os.pop.setContents i ((os.contents i).writeAt off (b.take n))
  match os.answer with
  | .done =>
    if off + b.length ≤ maxLen then (.ok (), put b.length) else (.error e, (put (maxLen - off)).fail)
  | .fail n => (.error e, (put (if whole then n else min n (b.length - 1))).fail)

/-- Write all of the bytes: if the call fails, not all of them are there. -/
def writeAll (e : ε) (i off : ℕ) (b : Bytes) : Effect Os ε Unit := writeWith false e i off b

/-- Write through a buffer that is flushed once more when it is dropped: the call may fail and yet
all of the bytes be there. -/
def writeBuffered (e : ε) (i off : ℕ) (b : Bytes) : Effect Os ε Unit := writeWith true e i off b

/-- Wait until the contents are durable. -/
def sync (e : ε) (i : ℕ) : Effect Os ε Unit := fun os ↦
  match os.answer with
  | .done => (.ok (), os.pop.setInode i ⟨os.contents i, os.contents i⟩)
  | .fail _ => (.error e, os.pop.fail)

/-- Cut or extend a file. -/
def setLen (e : ε) (i n : ℕ) : Effect Os ε Unit := fun os ↦
  match os.answer with
  | .done => (.ok (), os.pop.setContents i ((os.contents i).setLen n))
  | .fail _ => (.error e, os.pop.fail)

/-- Open a file, or make an empty one. -/
def openFile (e : ε) (name : String) : Effect Os ε ℕ := fun os ↦
  match os.answer, os.names name with
  | .fail _, _ => (.error e, os.pop.fail)
  | .done, some i => (.ok i, os.pop)
  | .done, none =>
    (.ok os.next, { os.pop.setInode os.next {} with
      next := os.next + 1, names := Function.update os.names name (some os.next) })

/-- Open a file and empty it. -/
def createFile (e : ε) (name : String) : Effect Os ε ℕ := do
  let i ← openFile e name
  Effect.modify (·.setContents i [])
  return i

/-- Give a file the name of another. -/
def rename (e : ε) (src dst : String) : Effect Os ε Unit := fun os ↦
  match os.answer with
  | .done =>
    (.ok (), { os.pop with
      names := Function.update (Function.update os.names dst (os.names src)) src none })
  | .fail _ => (.error e, os.pop.fail)

/-- Whether there is a file with this name; none is found when the call fails. -/
def existsFile (name : String) : Effect Os ε Bool := fun os ↦
  match os.answer with
  | .done => (.ok (os.names name).isSome, os.pop)
  | .fail _ => (.ok false, os.pop.fail)

/-- Take a name away. -/
def removeFile (e : ε) (name : String) : Effect Os ε Unit := fun os ↦
  match os.answer with
  | .done => (.ok (), { os.pop with names := Function.update os.names name none })
  | .fail _ => (.error e, os.pop.fail)

/-! ## What the calls change

One rule for each call, in both directions: from the result to what happened to the files. A
program is taken apart with these rules, and never by unfolding a call. -/

@[simp] theorem contents_pop (os : Os) (i : ℕ) : os.pop.contents i = os.contents i := rfl

@[simp] theorem contents_withPlan (os : Os) (plan : List Answer) (i : ℕ) :
    (os.withPlan plan).contents i = os.contents i := rfl

@[simp] theorem contents_fail (os : Os) (i : ℕ) : os.fail.contents i = os.contents i := rfl

@[simp] theorem contents_setContents_self (os : Os) (i : ℕ) (b : Bytes) :
    (os.setContents i b).contents i = b := by
  simp [contents, setContents, setInode]

@[simp] theorem contents_setInode_self (os : Os) (i : ℕ) (f : Inode) :
    (os.setInode i f).contents i = f.contents := by
  simp [contents, setInode]

/-- A call that is not a write succeeds or fails, and leaves the files. -/
theorem call_cases (e : ε) (os : Os) :
    (call e os = (.ok (), os.pop) ∧ os.answer = .done) ∨
      (call e os = (.error e, os.pop.fail) ∧ os.answer ≠ .done) := by
  rw [call]
  cases h : os.answer with
  | done => exact .inl ⟨rfl, rfl⟩
  | fail n => exact .inr ⟨rfl, by simp⟩

theorem call_eq_ok {e : ε} {os os' : Os} :
    call e os = (.ok (), os') ↔ os.answer = .done ∧ os' = os.pop := by
  obtain ⟨h, hans⟩ | ⟨h, hans⟩ := call_cases e os
  · rw [h, Prod.mk.injEq, eq_comm (a := os.pop)]
    simp [hans]
  · rw [h, Prod.mk.injEq]
    simp [hans]

theorem call_eq_error {e e' : ε} {os os' : Os} (h : call e os = (.error e', os')) :
    os' = os.pop.fail := by
  obtain ⟨hcall, -⟩ | ⟨hcall, -⟩ := call_cases e os
  · rw [hcall] at h
    cases h
  · rw [hcall] at h
    cases h
    rfl

theorem fileLen_eq_ok {e : ε} {i n : ℕ} {os os' : Os} :
    fileLen e i os = (.ok n, os') ↔
      os.answer = .done ∧ os' = os.pop ∧ n = (os.contents i).length := by
  rw [fileLen, Effect.bind_eq_ok]
  constructor
  · rintro ⟨_, os₁, hcall, h⟩
    obtain ⟨hans, rfl⟩ := call_eq_ok.mp hcall
    cases h
    exact ⟨hans, rfl, rfl⟩
  · rintro ⟨hans, rfl, rfl⟩
    exact ⟨(), os.pop, call_eq_ok.mpr ⟨hans, rfl⟩, rfl⟩

theorem fileLen_eq_error {e e' : ε} {i : ℕ} {os os' : Os} (h : fileLen e i os = (.error e', os')) :
    os' = os.pop.fail := by
  rw [fileLen, Effect.bind_eq_error] at h
  rcases h with h | ⟨_, os₁, -, h⟩
  · exact call_eq_error h
  · cases h

theorem sync_eq_error {e e' : ε} {i : ℕ} {os os' : Os} (h : sync e i os = (.error e', os')) :
    os' = os.pop.fail := by
  rw [sync] at h
  cases hanswer : os.answer with
  | done =>
    rw [hanswer] at h
    cases h
  | fail n =>
    rw [hanswer] at h
    cases h
    rfl

theorem sync_eq_ok {e : ε} {i : ℕ} {os os' : Os} (h : sync e i os = (.ok (), os')) :
    os' = os.pop.setInode i ⟨os.contents i, os.contents i⟩ := by
  rw [sync] at h
  cases hanswer : os.answer with
  | done =>
    rw [hanswer] at h
    cases h
    rfl
  | fail n =>
    rw [hanswer] at h
    cases h

theorem setLen_eq_ok {e : ε} {i n : ℕ} {os os' : Os} (h : setLen e i n os = (.ok (), os')) :
    os' = os.pop.setContents i ((os.contents i).setLen n) := by
  rw [setLen] at h
  cases hanswer : os.answer with
  | done =>
    rw [hanswer] at h
    cases h
    rfl
  | fail m =>
    rw [hanswer] at h
    cases h

theorem sync_of_done {e : ε} {i : ℕ} {os : Os} (h : os.answer = .done) :
    sync e i os = (.ok (), os.pop.setInode i ⟨os.contents i, os.contents i⟩) := by
  rw [sync, h]

@[simp] theorem contents_sync (e : ε) (i j : ℕ) (os : Os) :
    (sync e i os).2.contents j = os.contents j := by
  rw [sync]
  cases os.answer with
  | done =>
    by_cases h : j = i
    · subst h
      exact contents_setInode_self ..
    · simp [contents, setInode, pop, h]
  | fail n => rfl

/-- A write puts down all of its bytes, or fails after some of them. -/
theorem writeWith_cases (whole : Bool) (e : ε) (i off : ℕ) (b : Bytes) (os : Os) :
    (writeWith whole e i off b os = (.ok (), os.pop.setContents i ((os.contents i).writeAt off b)) ∧
      off + b.length ≤ maxLen ∧ os.answer = .done) ∨
    ∃ n, writeWith whole e i off b os =
        (.error e, (os.pop.setContents i ((os.contents i).writeAt off (b.take n))).fail) ∧
      (whole = false → b ≠ [] → n < b.length) ∧ ∀ m, os.answer = .fail m → n ≤ m := by
  rw [writeWith]
  cases h : os.answer with
  | done =>
    dsimp only
    split
    next hle => exact .inl ⟨by rw [List.take_length], hle, rfl⟩
    next hgt =>
      right
      refine ⟨maxLen - off, rfl, fun _ hb ↦ ?_, by simp⟩
      have hpos := List.length_pos_iff.mpr hb
      omega
  | fail n =>
    right
    refine ⟨_, rfl, ?_, ?_⟩
    · rintro rfl hb
      have hpos := List.length_pos_iff.mpr hb
      simp only [Bool.false_eq_true, if_false]
      omega
    · rintro m hm
      obtain rfl := Answer.fail.inj hm
      split
      · exact le_rfl
      · exact Nat.min_le_left ..

theorem writeWith_eq_ok {whole : Bool} {e : ε} {i off : ℕ} {b : Bytes} {os os' : Os} :
    writeWith whole e i off b os = (.ok (), os') ↔
      os.answer = .done ∧ off + b.length ≤ maxLen ∧
        os' = os.pop.setContents i ((os.contents i).writeAt off b) := by
  obtain ⟨h, hle, hans⟩ | ⟨n, h, -, -⟩ := writeWith_cases whole e i off b os
  · rw [h, Prod.mk.injEq, eq_comm (a := os.pop.setContents ..)]
    simp [hans, hle]
  · rw [h]
    constructor
    · intro heq
      cases heq
    · rintro ⟨hans, hle, -⟩
      rw [writeWith, hans] at h
      simp [hle] at h

/-- A write that fails has put down some of its bytes. -/
theorem writeWith_eq_error {whole : Bool} {e e' : ε} {i off : ℕ} {b : Bytes} {os os' : Os}
    (h : writeWith whole e i off b os = (.error e', os')) :
    ∃ n, os' = (os.pop.setContents i ((os.contents i).writeAt off (b.take n))).fail := by
  obtain ⟨hwrite, -, -⟩ | ⟨n, hwrite, -, -⟩ := writeWith_cases whole e i off b os
  · rw [hwrite] at h
    cases h
  · rw [hwrite] at h
    cases h
    exact ⟨n, rfl⟩

/-! ## What the calls leave alone -/

/-- At most one file has changed, and no name. -/
structure Touches (i : ℕ) (os os' : Os) : Prop where
  names : os'.names = os.names
  next : os'.next = os.next
  others : ∀ j, j ≠ i → os'.inodes j = os.inodes j
  plan : os'.plan <:+ os.plan
  failed : os.failed = true → os'.failed = true

namespace Touches

variable {i : ℕ} {os os' os'' : Os}

theorem rfl' : Touches i os os := ⟨rfl, rfl, fun _ _ ↦ rfl, List.suffix_refl _, id⟩

theorem trans (h : Touches i os os') (h' : Touches i os' os'') : Touches i os os'' where
  names := h'.names.trans h.names
  next := h'.next.trans h.next
  others j hj := (h'.others j hj).trans (h.others j hj)
  plan := h'.plan.trans h.plan
  failed hf := h'.failed (h.failed hf)

theorem contents (h : Touches i os os') {j : ℕ} (hj : j ≠ i) : os'.contents j = os.contents j := by
  rw [Os.contents, Os.contents, h.others j hj]

end Touches

section

variable {α β : Type}

theorem steps_bind {i : ℕ} {x : Effect Os ε α} {f : α → Effect Os ε β}
    (hx : Effect.Steps (Touches i) x) (hf : ∀ a, Effect.Steps (Touches i) (f a)) :
    Effect.Steps (Touches i) (x >>= f) :=
  Effect.Steps.bind (R := Touches i) (fun _ _ _ ↦ Touches.trans) hx hf

theorem steps_pure (i : ℕ) (a : α) : Effect.Steps (Touches i) (pure a : Effect Os ε α) :=
  Effect.steps_pure (fun _ ↦ Touches.rfl') a

theorem steps_throw (i : ℕ) (e : ε) : Effect.Steps (Touches i) (Effect.throw e : Effect Os ε α) :=
  Effect.steps_throw (fun _ ↦ Touches.rfl') e

theorem steps_unless {i : ℕ} {c : Prop} [Decidable c] {e : ε} {f : PUnit → Effect Os ε α}
    (h : ∀ u, Effect.Steps (Touches i) (f u)) :
    Effect.Steps (Touches i) (if c then Effect.throw e >>= f else f ⟨⟩) := by
  split_ifs
  · exact steps_bind (steps_throw i e) h
  · exact h ⟨⟩

theorem steps_get (i : ℕ) : Effect.Steps (Touches i) (Effect.get : Effect Os ε Os) :=
  Effect.steps_get fun _ ↦ Touches.rfl'

theorem steps_ofExcept (i : ℕ) (x : Except ε α) :
    Effect.Steps (Touches i) (Effect.ofExcept x : Effect Os ε α) :=
  Effect.steps_ofExcept (fun _ ↦ Touches.rfl') x

end

theorem touches_pop (i : ℕ) (os : Os) : Touches i os os.pop :=
  ⟨rfl, rfl, fun _ _ ↦ rfl, List.tail_suffix _, id⟩

theorem touches_fail (i : ℕ) (os : Os) : Touches i os os.fail :=
  ⟨rfl, rfl, fun _ _ ↦ rfl, List.suffix_refl _, fun _ ↦ rfl⟩

theorem touches_setInode (os : Os) (i : ℕ) (f : Inode) : Touches i os (os.setInode i f) :=
  ⟨rfl, rfl, fun _ hj ↦ Function.update_of_ne hj _ _, List.suffix_refl _, id⟩

theorem touches_setContents (os : Os) (i : ℕ) (b : Bytes) : Touches i os (os.setContents i b) :=
  touches_setInode ..

theorem steps_call (e : ε) (i : ℕ) : Effect.Steps (Touches i) (call e) := by
  intro os
  obtain ⟨h, -⟩ | ⟨h, -⟩ := call_cases e os
  · rw [h]
    exact touches_pop i os
  · rw [h]
    exact (touches_pop i os).trans (touches_fail i _)

theorem steps_read (e : ε) (i j : ℕ) : Effect.Steps (Touches i) (read e j) :=
  steps_bind (steps_call e i) fun _ ↦ steps_bind (steps_get i) fun _ ↦ steps_pure i _

theorem steps_fileLen (e : ε) (i j : ℕ) : Effect.Steps (Touches i) (fileLen e j) :=
  steps_bind (steps_call e i) fun _ ↦ steps_bind (steps_get i) fun _ ↦ steps_pure i _

theorem steps_writeWith (whole : Bool) (e : ε) (i off : ℕ) (b : Bytes) :
    Effect.Steps (Touches i) (writeWith whole e i off b) := by
  intro os
  obtain ⟨h, -⟩ | ⟨n, h, -⟩ := writeWith_cases whole e i off b os
  · rw [h]
    exact (touches_pop i os).trans (touches_setContents ..)
  · rw [h]
    exact ((touches_pop i os).trans (touches_setContents ..)).trans (touches_fail i _)

theorem steps_sync (e : ε) (i : ℕ) : Effect.Steps (Touches i) (sync e i) := by
  intro os
  rw [sync]
  cases os.answer with
  | done => exact (touches_pop i os).trans (touches_setInode ..)
  | fail n => exact (touches_pop i os).trans (touches_fail i _)

theorem steps_setLen (e : ε) (i n : ℕ) : Effect.Steps (Touches i) (setLen e i n) := by
  intro os
  rw [setLen]
  cases os.answer with
  | done => exact (touches_pop i os).trans (touches_setContents ..)
  | fail n => exact (touches_pop i os).trans (touches_fail i _)

/-! ## Why a computation fails

The errors of a program are those of its calls and those it raises itself. `FailsBy` keeps the two
apart, which is what is needed to show that a run without failing calls has no errors of the first
kind. -/

/-- An error means that a call has failed, or there is a reason `Q` for it. -/
def FailsBy {α : Type} (Q : Prop) (x : Effect Os ε α) : Prop :=
  ∀ os e os', x os = (.error e, os') → os'.failed = true ∨ Q

section

variable {α β : Type} {Q : Prop}

theorem FailsBy.bind {x : Effect Os ε α} {f : α → Effect Os ε β} (hx : FailsBy Q x)
    (hf : ∀ a, FailsBy Q (f a)) : FailsBy Q (x >>= f) := by
  intro os e os' h
  rcases Effect.bind_eq_error.mp h with h | ⟨a, os₁, -, h⟩
  · exact hx os e os' h
  · exact hf a os₁ e os' h

theorem failsBy_pure (a : α) : FailsBy Q (pure a : Effect Os ε α) := by
  intro os e os' h
  cases h

theorem failsBy_ofExcept {x : Except ε α} (h : ∀ e, x = .error e → Q) :
    FailsBy Q (Effect.ofExcept x : Effect Os ε α) := by
  intro os e os' heq
  obtain ⟨hx, -⟩ := Effect.ofExcept_eq_error.mp heq
  exact .inr (h e hx)

theorem failsBy_call (e : ε) : FailsBy Q (call e) := by
  intro os e' os' h
  rw [call_eq_error h]
  exact .inl rfl

theorem failsBy_writeWith (whole : Bool) (e : ε) (i off : ℕ) (b : Bytes) :
    FailsBy Q (writeWith whole e i off b) := by
  intro os e' os' h
  obtain ⟨n, rfl⟩ := writeWith_eq_error h
  exact .inl rfl

theorem failsBy_sync (e : ε) (i : ℕ) : FailsBy Q (sync e i) := by
  intro os e' os' h
  rw [sync_eq_error h]
  exact .inl rfl

theorem failsBy_setLen (e : ε) (i n : ℕ) : FailsBy Q (setLen e i n) := by
  intro os e' os' h
  rw [setLen] at h
  cases hanswer : os.answer with
  | done =>
    rw [hanswer] at h
    cases h
  | fail m =>
    rw [hanswer] at h
    cases h
    exact .inl rfl

theorem failsBy_rename (e : ε) (src dst : String) : FailsBy Q (rename e src dst) := by
  intro os e' os' h
  rw [rename] at h
  cases hanswer : os.answer with
  | done =>
    rw [hanswer] at h
    cases h
  | fail m =>
    rw [hanswer] at h
    cases h
    exact .inl rfl

/-- What runs after an error does not undo the failure. -/
theorem FailsBy.onError {x : Effect Os ε α} {cleanup : Effect Os ε Unit} (hx : FailsBy Q x)
    (hcleanup : ∀ os, os.failed = true → (cleanup os).2.failed = true) :
    FailsBy Q (Effect.onError x cleanup) := by
  intro os e os' h
  rw [Effect.onError] at h
  rcases hrun : x os with ⟨e' | a, os₁⟩
  · rw [hrun] at h
    cases h
    exact (hx os _ os₁ hrun).imp_left (hcleanup os₁)
  · rw [hrun] at h
    cases h

end

/-! ## How many calls a computation makes

A plan answers call by call, so where a failure happens is a number. `Uses` counts the calls of a
computation that succeeds, which locates the failing call in the plan. -/

/-- What succeeds has used up so many answers, and all of them were done. -/
def Uses {α : Type} (k : ℕ) (x : Effect Os ε α) : Prop :=
  ∀ os a os', x os = (.ok a, os') →
    os'.plan = os.plan.drop k ∧ ∀ r ∈ os.plan.take k, r = Answer.done

section

variable {α β : Type}

theorem Uses.bind {k m : ℕ} {x : Effect Os ε α} {f : α → Effect Os ε β} (hx : Uses k x)
    (hf : ∀ a, Uses m (f a)) : Uses (k + m) (x >>= f) := by
  intro os b os' h
  obtain ⟨a, os₁, hfirst, hrest⟩ := Effect.bind_eq_ok.mp h
  obtain ⟨hplan₁, hdone₁⟩ := hx os a os₁ hfirst
  obtain ⟨hplan, hdone⟩ := hf a os₁ b os' hrest
  rw [hplan₁] at hplan hdone
  refine ⟨by rw [hplan, List.drop_drop], fun r hr ↦ ?_⟩
  rw [List.take_add] at hr
  rcases List.mem_append.mp hr with hr | hr
  · exact hdone₁ r hr
  · exact hdone r hr

theorem uses_pure (a : α) : Uses 0 (pure a : Effect Os ε α) := by
  intro os a' os' h
  cases h
  exact ⟨rfl, by simp⟩

theorem uses_get : Uses 0 (Effect.get : Effect Os ε Os) := by
  intro os a os' h
  cases h
  exact ⟨rfl, by simp⟩

theorem uses_unless {k : ℕ} {c : Prop} [Decidable c] {e : ε} {f : PUnit → Effect Os ε α}
    (h : ∀ u, Uses k (f u)) : Uses k (if c then Effect.throw e >>= f else f ⟨⟩) := by
  split_ifs
  · intro os a os' heq
    obtain ⟨_, os₁, hthrow, -⟩ := Effect.bind_eq_ok.mp heq
    cases hthrow
  · exact h ⟨⟩

/-- A call that takes the next answer and succeeds. -/
theorem uses_one {x : Effect Os ε α} (h : ∀ os a os', x os = (.ok a, os') →
    os.answer = .done ∧ os'.plan = os.pop.plan) : Uses 1 x := by
  intro os a os' hx
  obtain ⟨hanswer, hplan⟩ := h os a os' hx
  refine ⟨by rw [hplan, pop, List.drop_one], fun r hr ↦ ?_⟩
  rw [answer] at hanswer
  cases hp : os.plan with
  | nil => simp [hp] at hr
  | cons r' rs =>
    rw [hp] at hanswer hr
    obtain rfl := List.mem_singleton.mp hr
    exact hanswer

theorem uses_call (e : ε) : Uses 1 (call e) :=
  uses_one fun os _ os' h ↦ by
    obtain ⟨hanswer, rfl⟩ := call_eq_ok.mp h
    exact ⟨hanswer, rfl⟩

theorem uses_fileLen (e : ε) (i : ℕ) : Uses 1 (fileLen e i) :=
  (uses_call e).bind fun _ ↦ uses_get.bind fun _ ↦ uses_pure _

theorem uses_writeWith (whole : Bool) (e : ε) (i off : ℕ) (b : Bytes) :
    Uses 1 (writeWith whole e i off b) :=
  uses_one fun os _ os' h ↦ by
    obtain ⟨hanswer, -, rfl⟩ := writeWith_eq_ok.mp h
    exact ⟨hanswer, rfl⟩

theorem uses_sync (e : ε) (i : ℕ) : Uses 1 (sync e i) :=
  uses_one fun os _ os' h ↦ by
    rw [sync] at h
    cases hanswer : os.answer with
    | done =>
      rw [hanswer] at h
      cases h
      exact ⟨rfl, rfl⟩
    | fail n =>
      rw [hanswer] at h
      cases h

end

/-! ## When no call fails -/

/-- Every call to come is done. -/
def Quiet (os : Os) : Prop := os.plan = []

instance (os : Os) : Decidable os.Quiet := inferInstanceAs (Decidable (_ = _))

theorem Touches.quiet {i : ℕ} {os os' : Os} (h : Touches i os os') (hq : os.Quiet) : os'.Quiet := by
  have hsuffix := h.plan
  rw [hq] at hsuffix
  exact List.eq_nil_of_suffix_nil hsuffix

theorem Quiet.answer {os : Os} (h : os.Quiet) : os.answer = .done := by
  rw [Os.answer, h]
  rfl

theorem Quiet.pop {os : Os} (h : os.Quiet) : os.pop = os := by
  rw [Os.pop, h]
  exact congrArg (fun plan ↦ ({ os with plan } : Os)) (Eq.symm h)

theorem Quiet.call {os : Os} (h : os.Quiet) (e : ε) : Os.call e os = (.ok (), os) := by
  rw [call_eq_ok]
  exact ⟨h.answer, h.pop.symm⟩

theorem Quiet.read {os : Os} (h : os.Quiet) (e : ε) (i : ℕ) :
    Os.read e i os = (.ok (os.contents i), os) := by
  rw [Os.read, Effect.bind_apply_of_ok (h.call e)]
  rfl

theorem Quiet.fileLen {os : Os} (h : os.Quiet) (e : ε) (i : ℕ) :
    Os.fileLen e i os = (.ok (os.contents i).length, os) := by
  rw [fileLen_eq_ok]
  exact ⟨h.answer, h.pop.symm, rfl⟩

theorem Quiet.sync {os : Os} (h : os.Quiet) (e : ε) (i : ℕ) :
    Os.sync e i os = (.ok (), os.setInode i ⟨os.contents i, os.contents i⟩) := by
  rw [sync_of_done h.answer, h.pop]

theorem Quiet.setLen {os : Os} (h : os.Quiet) (e : ε) (i n : ℕ) :
    Os.setLen e i n os = (.ok (), os.setContents i ((os.contents i).setLen n)) := by
  rw [Os.setLen, h.answer]
  dsimp only
  rw [h.pop]

theorem Quiet.writeWith {os : Os} (h : os.Quiet) {off : ℕ} {b : Bytes} (hle : off + b.length ≤ maxLen)
    (whole : Bool) (e : ε) (i : ℕ) : Os.writeWith whole e i off b os =
      (.ok (), os.setContents i ((os.contents i).writeAt off b)) := by
  rw [writeWith_eq_ok]
  exact ⟨h.answer, hle, by rw [h.pop]⟩

theorem Quiet.setInode {os : Os} (h : os.Quiet) (i : ℕ) (f : Inode) : (os.setInode i f).Quiet := h

theorem Quiet.setContents {os : Os} (h : os.Quiet) (i : ℕ) (b : Bytes) :
    (os.setContents i b).Quiet := h

theorem Quiet.removeFile {os : Os} (h : os.Quiet) (e : ε) (name : String) :
    Os.removeFile e name os =
      (.ok (), { os with names := Function.update os.names name none }) := by
  rw [Os.removeFile, h.answer]
  dsimp only
  rw [h.pop]

theorem Quiet.rename {os : Os} (h : os.Quiet) (e : ε) (src dst : String) :
    Os.rename e src dst os = (.ok (), { os with
      names := Function.update (Function.update os.names dst (os.names src)) src none }) := by
  rw [Os.rename, h.answer]
  dsimp only
  rw [h.pop]

/-- A file that there is is opened. -/
theorem Quiet.openFile_of_some {os : Os} (h : os.Quiet) {name : String} {i : ℕ}
    (hname : os.names name = some i) (e : ε) : Os.openFile e name os = (.ok i, os) := by
  rw [Os.openFile, h.answer, hname]
  dsimp only
  rw [h.pop]

/-- A file that there is not is made. -/
theorem Quiet.openFile_of_none {os : Os} (h : os.Quiet) {name : String}
    (hname : os.names name = none) (e : ε) : Os.openFile e name os =
      (.ok os.next, { os.setInode os.next {} with
        next := os.next + 1, names := Function.update os.names name (some os.next) }) := by
  rw [Os.openFile, h.answer, hname]
  dsimp only
  rw [h.pop]

/-! ## Changes to one name -/

/-- Only the file with this name has changed, or was made or removed. -/
structure Beside (name : String) (os os' : Os) : Prop where
  names : ∀ other, other ≠ name → os'.names other = os.names other
  inodes : ∀ j < os.next, os.names name ≠ some j → os'.inodes j = os.inodes j
  next : os.next ≤ os'.next
  named : ∀ j, os'.names name = some j → os.names name = some j ∨ os.next ≤ j ∧ j < os'.next
  plan : os'.plan <:+ os.plan
  failed : os.failed = true → os'.failed = true

namespace Beside

variable {name : String} {os os' os'' : Os}

theorem rfl' : Beside name os os :=
  ⟨fun _ _ ↦ rfl, fun _ _ _ ↦ rfl, le_rfl, fun _ ↦ .inl, List.suffix_refl _, id⟩

theorem trans (h : Beside name os os') (h' : Beside name os' os'') : Beside name os os'' where
  names other ho := (h'.names other ho).trans (h.names other ho)
  inodes j hj hname := by
    have hname' : os'.names name ≠ some j := fun hj' ↦ by
      rcases h.named j hj' with hj' | hj'
      · exact hname hj'
      · omega
    exact (h'.inodes j (hj.trans_le h.next) hname').trans (h.inodes j hj hname)
  next := h.next.trans h'.next
  named j hj := by
    have hnext := h'.next
    rcases h'.named j hj with hj | ⟨hle, hlt⟩
    · exact (h.named j hj).imp_right fun ⟨hle, hlt⟩ ↦ ⟨hle, hlt.trans_le hnext⟩
    · exact .inr ⟨h.next.trans hle, hlt⟩
  plan := h'.plan.trans h.plan
  failed hf := h'.failed (h.failed hf)

/-- Changes to the file itself. -/
theorem of_touches {i : ℕ} (hname : os.names name = some i) (h : Touches i os os') :
    Beside name os os' where
  names other _ := by rw [h.names]
  inodes j _ hj := h.others j fun heq ↦ hj (heq ▸ hname)
  next := h.next.ge
  named j hj := .inl (by rwa [h.names] at hj)
  plan := h.plan
  failed := h.failed

theorem contents (h : Beside name os os') {j : ℕ} (hj : j < os.next) (hname : os.names name ≠ some j) :
    os'.contents j = os.contents j := by rw [Os.contents, Os.contents, h.inodes j hj hname]

end Beside

theorem beside_pop (name : String) (os : Os) : Beside name os os.pop :=
  ⟨fun _ _ ↦ rfl, fun _ _ _ ↦ rfl, le_rfl, fun _ ↦ .inl, List.tail_suffix _, id⟩

theorem beside_fail (name : String) (os : Os) : Beside name os os.fail :=
  ⟨fun _ _ ↦ rfl, fun _ _ _ ↦ rfl, le_rfl, fun _ ↦ .inl, List.suffix_refl _, fun _ ↦ rfl⟩

theorem beside_removeFile (e : ε) (name : String) (os : Os) :
    Beside name os (removeFile e name os).2 := by
  rw [removeFile]
  cases os.answer with
  | done =>
    refine (beside_pop name os).trans ⟨fun other ho ↦ ?_, fun _ _ _ ↦ rfl, le_rfl, fun j hj ↦ ?_,
      List.suffix_refl _, id⟩
    · exact Function.update_of_ne ho ..
    · change Function.update os.names name none name = some j at hj
      rw [Function.update_self] at hj
      cases hj
  | fail n => exact (beside_pop name os).trans (beside_fail name _)

/-- A file is found or made, or the call fails. -/
theorem openFile_cases (e : ε) (name : String) (os : Os) :
    (∃ i os', openFile e name os = (.ok i, os') ∧ Beside name os os' ∧
      os'.names name = some i ∧
      (os.names name = some i ∨ os.names name = none ∧ i = os.next ∧ i < os'.next)) ∨
    openFile e name os = (.error e, os.pop.fail) := by
  cases hanswer : os.answer with
  | fail n => exact .inr (by rw [openFile, hanswer])
  | done =>
    left
    cases hname : os.names name with
    | some i =>
      exact ⟨i, os.pop, by rw [openFile, hanswer, hname], beside_pop name os, hname, .inl rfl⟩
    | none =>
      refine ⟨os.next, { os.pop.setInode os.next {} with
          next := os.next + 1, names := Function.update os.names name (some os.next) },
        by rw [openFile, hanswer, hname], ?_, Function.update_self ..,
        .inr ⟨rfl, rfl, Nat.lt_succ_self _⟩⟩
      refine ⟨fun other ho ↦ Function.update_of_ne ho .., fun j hj _ ↦ ?_, Nat.le_succ _,
        fun j hj ↦ ?_, List.tail_suffix _, id⟩
      · change Function.update os.inodes os.next {} j = _
        rw [Function.update_of_ne (ne_of_lt hj)]
      · change Function.update os.names name (some os.next) name = some j at hj
        rw [Function.update_self] at hj
        obtain rfl := Option.some.inj hj
        exact .inr ⟨le_rfl, Nat.lt_succ_self _⟩

/-- A file is made or emptied, or the call fails. -/
theorem createFile_cases (e : ε) (name : String) (os : Os) :
    (∃ i os', createFile e name os = (.ok i, os') ∧ Beside name os os' ∧
      os'.names name = some i ∧ os'.contents i = [] ∧
      (os.names name = some i ∨ os.names name = none ∧ i = os.next ∧ i < os'.next)) ∨
    ∃ os', createFile e name os = (.error e, os') ∧ Beside name os os' ∧ os'.failed = true := by
  rw [createFile]
  obtain ⟨i, os', hopen, hbeside, hname, hknown⟩ | hopen := openFile_cases e name os
  · rw [Effect.bind_apply_of_ok hopen]
    exact .inl ⟨i, os'.setContents i [], rfl,
      hbeside.trans (.of_touches hname (touches_setContents ..)), hname,
      contents_setContents_self .., hknown⟩
  · rw [Effect.bind_apply_of_error hopen]
    exact .inr ⟨_, rfl, (beside_pop name os).trans (beside_fail name _), rfl⟩

theorem failsBy_createFile {Q : Prop} (e : ε) (name : String) : FailsBy Q (createFile e name) := by
  intro os e' os' h
  obtain ⟨_, _, hcreate, -⟩ | ⟨_, hcreate, -, hfailed⟩ := createFile_cases e name os
  · rw [hcreate] at h
    cases h
  · rw [hcreate] at h
    cases h
    exact .inl hfailed

theorem Beside.quiet {name : String} {os os' : Os} (h : Beside name os os') (hq : os.Quiet) :
    os'.Quiet := by
  have hsuffix := h.plan
  rw [hq] at hsuffix
  exact List.eq_nil_of_suffix_nil hsuffix

/-! ## Changes to what is owned -/

/-- A file that one of the names leads to, that is held open, or that is not made yet. -/
def Owned (N : String → Prop) (i : ℕ) (os : Os) (j : ℕ) : Prop :=
  j = i ∨ os.next ≤ j ∨ ∃ name, N name ∧ os.names name = some j

/-- The file that is held open, and the files that owned names lead to, are made. -/
def Bounded (N : String → Prop) (i : ℕ) (os : Os) : Prop :=
  i < os.next ∧ ∀ name j, N name → os.names name = some j → j < os.next

/-- Only owned names and owned files have changed. Another file may be held open now. -/
structure Within (N : String → Prop) (i i' : ℕ) (os os' : Os) : Prop where
  names : ∀ name, ¬N name → os'.names name = os.names name
  inodes : ∀ j, ¬Owned N i os j → os'.inodes j = os.inodes j
  owned : ∀ j, Owned N i' os' j → Owned N i os j
  next : os.next ≤ os'.next
  bounded : Bounded N i os → Bounded N i' os'

namespace Within

variable {N : String → Prop} {i i' i'' : ℕ} {os os' os'' : Os}

theorem rfl' : Within N i i os os := ⟨fun _ _ ↦ rfl, fun _ _ ↦ rfl, fun _ ↦ id, le_rfl, id⟩

theorem trans (h : Within N i i' os os') (h' : Within N i' i'' os' os'') :
    Within N i i'' os os'' where
  names name hname := (h'.names name hname).trans (h.names name hname)
  inodes j hj := (h'.inodes j fun hj' ↦ hj (h.owned j hj')).trans (h.inodes j hj)
  owned j hj := h.owned j (h'.owned j hj)
  next := h.next.trans h'.next
  bounded hb := h'.bounded (h.bounded hb)

/-- Changes to an owned file. -/
theorem of_touches {j : ℕ} (h : Touches j os os') (hj : Owned N i os j) : Within N i i os os' where
  names name _ := by rw [h.names]
  inodes k hk := h.others k fun heq ↦ hk (heq ▸ hj)
  owned k hk := by
    rw [Owned, h.next, h.names] at hk
    exact hk
  next := h.next.ge
  bounded hb := by
    refine ⟨hb.1.trans_eq h.next.symm, fun name k hname hk ↦ ?_⟩
    rw [h.names] at hk
    exact (hb.2 name k hname hk).trans_eq h.next.symm

theorem of_beside {name : String} (h : Beside name os os') (hname : N name) :
    Within N i i os os' where
  names other ho := h.names other fun heq ↦ ho (heq ▸ hname)
  inodes j hj := h.inodes j (not_le.mp fun hle ↦ hj (.inr (.inl hle)))
    fun hn ↦ hj (.inr (.inr ⟨name, hname, hn⟩))
  owned j hj := by
    have hnext := h.next
    rcases hj with rfl | hle | ⟨other, ho, hn⟩
    · exact .inl rfl
    · exact .inr (.inl (hnext.trans hle))
    · by_cases heq : other = name
      · rw [heq] at hn
        rcases h.named j hn with hn | ⟨hle, -⟩
        · exact .inr (.inr ⟨name, hname, hn⟩)
        · exact .inr (.inl hle)
      · rw [h.names other heq] at hn
        exact .inr (.inr ⟨other, ho, hn⟩)
  next := h.next
  bounded hb := by
    refine ⟨hb.1.trans_le h.next, fun other j ho hn ↦ ?_⟩
    by_cases heq : other = name
    · rw [heq] at hn
      rcases h.named j hn with hn | ⟨-, hlt⟩
      · exact (hb.2 name j hname hn).trans_le h.next
      · exact hlt
    · rw [h.names other heq] at hn
      exact (hb.2 other j ho hn).trans_le h.next

/-- An owned file is held open now. -/
theorem hold {name : String} (hname : N name) (h : os.names name = some i') :
    Within N i i' os os where
  names _ _ := rfl
  inodes _ _ := rfl
  owned j hj := by
    rcases hj with rfl | hj
    · exact .inr (.inr ⟨name, hname, h⟩)
    · exact .inr hj
  next := le_rfl
  bounded hb := ⟨hb.2 name i' hname h, hb.2⟩

end Within

theorem within_rename {N : String → Prop} {src dst : String} (hsrc : N src) (hdst : N dst) (e : ε)
    (i : ℕ) (os : Os) : Within N i i os (rename e src dst os).2 := by
  rw [rename]
  cases os.answer with
  | fail n => exact .of_beside ((beside_pop src os).trans (beside_fail src _)) hsrc
  | done =>
    refine ⟨fun name hname ↦ ?_, fun _ _ ↦ rfl, fun j hj ↦ ?_, le_rfl,
      fun hb ↦ ⟨hb.1, fun name j hname hn ↦ ?_⟩⟩
    · change Function.update (Function.update os.names dst (os.names src)) src none name = _
      rw [Function.update_of_ne fun heq ↦ hname (by rw [heq]; exact hsrc),
        Function.update_of_ne fun heq ↦ hname (by rw [heq]; exact hdst)]
    · rcases hj with rfl | hle | ⟨name, hname, hn⟩
      · exact .inl rfl
      · exact .inr (.inl hle)
      · change Function.update (Function.update os.names dst (os.names src)) src none name = _ at hn
        rw [Function.update_apply, Function.update_apply] at hn
        split_ifs at hn
        · exact .inr (.inr ⟨src, hsrc, hn⟩)
        · exact .inr (.inr ⟨name, hname, hn⟩)
    · change Function.update (Function.update os.names dst (os.names src)) src none name = _ at hn
      rw [Function.update_apply, Function.update_apply] at hn
      split_ifs at hn
      · exact hb.2 src j hsrc hn
      · exact hb.2 name j hname hn

/-! ## When the machine goes down

A crash keeps names and drops what no sync has covered. A process that is killed loses nothing of
the files. -/

end Os
