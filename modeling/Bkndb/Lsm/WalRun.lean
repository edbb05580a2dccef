import Bkndb.Basic.Run
import Bkndb.Lsm.Wal

/-!
# Failed appends

Commits append frames at the end of the file, and any write may fail after some of its bytes. A part
of a frame at the end of the log is harmless: replay stops there, and recovery cuts it off. But an
append never cuts off what a failed one left, so a frame written behind such bytes is not found
again.

## The invariant

The log is a sequence of frames, whose records are the committed ones, and then bytes that are not
a frame. A commit that succeeds on a log without such bytes adds a frame; one that fails adds a
part of a frame; a reopen takes the bytes away. `Behind` excludes the one step that breaks this: a
write that puts anything behind bytes that a failed append has left, while the log is not clean.

## Main results

* `replay_eq_committed`: in every run without such a step, replay returns exactly the committed
  records.
* `replay_ne_committed_behind`: a commit that fails after one byte, and one that is then reported
  as written and not found.
-/

/-- A log, from an offset to the end of a file, and the records that a commit has reported as
written. -/
structure WalRun where
  os : Os
  start : ℕ
  committed : List WalRecord

/-- A commit, whose write may fail after some bytes, or closing and opening the container. -/
inductive WalStep where
  | commit (r : WalRecord) (fault : Option ℕ)
  | reopen
  deriving DecidableEq

namespace WalRun

/-- The answers for an append: after the seek, the write fails or does not. -/
def faultPlan : Option ℕ → List Answer
  | none => []
  | some n => [.done, .fail n]

/-- The container is the first file. -/
def file (s : WalRun) : Bytes := s.os.contents 0

def step (s : WalRun) : WalStep → Option WalRun
  | .commit r fault =>
    let x := Wal.append 0 r (s.os.withPlan (faultPlan fault))
    some { s with
      os := x.2
      committed := if x.1.toBool then s.committed ++ [r] else s.committed }
  | .reopen => some { s with os := (Wal.recover 0 s.start (s.os.withPlan [])).2 }

/-- The log is frames up to the end of the file. -/
def Clean (s : WalRun) : Prop := (Wal.replayFrom s.file s.start).2 = s.file.length

/-- Nothing is written behind the bytes that a failed append has left. -/
def Behind (s : WalRun) : WalStep → Prop
  | .commit r fault => s.Clean ∨ ¬r.Fits ∨ fault = some 0
  | .reopen => True

instance (s : WalRun) : Decidable s.Clean := inferInstanceAs (Decidable (_ = _))

instance (s : WalRun) : (a : WalStep) → Decidable (s.Behind a)
  | .commit _ _ => inferInstanceAs (Decidable (_ ∨ _ ∨ _))
  | .reopen => .isTrue trivial

/-- A container as the open leaves it. -/
structure Opened (s : WalRun) : Prop where
  start_le : s.start ≤ s.file.length
  clean : s.Clean
  committed : s.committed = (Wal.replayFrom s.file s.start).1

/-! ## The invariant -/

/-- The log is the committed frames and then something that is not a frame. -/
def Ok (s : WalRun) : Prop :=
  ∃ before body tail, s.file = before ++ (body ++ tail) ∧ before.length = s.start ∧
    Wal.replay body = (s.committed, body.length) ∧ Wal.parseFrame tail = none

theorem Ok.replayFrom {s : WalRun} (h : s.Ok) :
    ∃ before body tail, s.file = before ++ (body ++ tail) ∧ before.length = s.start ∧
      Wal.replay body = (s.committed, body.length) ∧ Wal.parseFrame tail = none ∧
      Wal.replayFrom s.file s.start = (s.committed, s.start + body.length) := by
  obtain ⟨before, body, tail, hfile, hstart, hbody, htail⟩ := h
  refine ⟨before, body, tail, hfile, hstart, hbody, htail, ?_⟩
  have hconsumed : (Wal.replay body).2 = body.length := by rw [hbody]
  rw [Wal.replayFrom, hfile, ← hstart, List.drop_left, Wal.replay_append hconsumed,
    Wal.replay_eq_of_none htail, hbody]
  simp

theorem Opened.ok {s : WalRun} (h : s.Opened) : s.Ok := by
  refine ⟨s.file.take s.start, s.file.drop s.start, [], ?_, List.length_take_of_le h.start_le, ?_, ?_⟩
  · rw [List.append_nil, List.take_append_drop]
  · have hclean := h.clean
    rw [Clean, Wal.replayFrom] at hclean
    rw [h.committed, Wal.replayFrom, List.length_drop]
    dsimp only at hclean ⊢
    have hle := h.start_le
    refine Prod.ext rfl ?_
    dsimp only
    omega
  · rfl

theorem Ok.torn {s s' : WalRun} (h : s.Ok) {p : Bytes} {r : WalRecord} (hfits : r.Fits)
    (hfile : s'.file = s.file ++ p) (hstart : s'.start = s.start)
    (hcommitted : s'.committed = s.committed) (hstarts : p <+: Wal.frame r.serialize)
    (hlt : p.length < (Wal.frame r.serialize).length) (hclean : s.Clean ∨ p = []) : s'.Ok := by
  obtain ⟨before, body, tail, hs, hbefore, hbody, htail, hreplay⟩ := h.replayFrom
  rcases hclean with hclean | rfl
  · have hnil : tail = [] := by
      rw [Clean, hreplay, hs, List.length_append, List.length_append] at hclean
      rw [← List.length_eq_zero_iff]
      dsimp only at hclean
      omega
    subst hnil
    refine ⟨before, body, p, ?_, hbefore.trans hstart.symm, by rw [hbody, hcommitted], ?_⟩
    · rw [hfile, hs, List.append_nil, List.append_assoc]
    · exact Wal.parseFrame_of_isPrefix hfits hstarts hlt
  · refine ⟨before, body, tail, ?_, hbefore.trans hstart.symm, by rw [hbody, hcommitted], htail⟩
    rw [hfile, hs, List.append_nil]

theorem Ok.appended {s s' : WalRun} (h : s.Ok) {r : WalRecord} (hfits : r.Fits)
    (hfile : s'.file = s.file ++ Wal.frame r.serialize) (hstart : s'.start = s.start)
    (hcommitted : s'.committed = s.committed ++ [r]) (hclean : s.Clean) : s'.Ok := by
  obtain ⟨before, body, tail, hs, hbefore, hbody, -, hreplay⟩ := h.replayFrom
  have hnil : tail = [] := by
    rw [Clean, hreplay, hs, List.length_append, List.length_append] at hclean
    rw [← List.length_eq_zero_iff]
    dsimp only at hclean
    omega
  subst hnil
  refine ⟨before, body ++ Wal.frame r.serialize, [], ?_, hbefore.trans hstart.symm, ?_, rfl⟩
  · rw [hfile, hs, List.append_nil, List.append_nil, List.append_assoc]
  · have hframe : Wal.replay (Wal.frame r.serialize) = ([r], (Wal.frame r.serialize).length) := by
      have hone := Wal.parseFrame_frame hfits []
      rw [List.append_nil] at hone
      rw [Wal.replay_eq_of_some hone, List.drop_length]
      rfl
    rw [Wal.replay_append (by rw [hbody]), hbody, hframe, hcommitted, List.length_append]

theorem file_recover {os : Os} {start : ℕ} {before body tail : Bytes} {rs : List WalRecord}
    (hfile : os.contents 0 = before ++ (body ++ tail)) (hplan : os.plan = [])
    (hreplay : Wal.replayFrom (os.contents 0) start = (rs, before.length + body.length)) :
    (Wal.recover 0 start os).2.contents 0 = before ++ body := by
  have hanswer : os.answer = .done := by rw [Os.answer, hplan]; rfl
  have hanswer' : os.pop.answer = .done := by rw [Os.answer, Os.pop, hplan]; rfl
  have hlen : (os.contents 0).length = before.length + (body.length + tail.length) := by
    rw [hfile, List.length_append, List.length_append]
  have hcall : Os.fileLen ioErr 0 os = (.ok (os.contents 0).length, os.pop) := by
    exact Os.fileLen_eq_ok.mpr ⟨hanswer, rfl, rfl⟩
  rw [Wal.recover, Effect.bind_apply_of_ok (Effect.get_apply os), hreplay]
  dsimp only
  rw [Effect.bind_apply_of_ok hcall]
  split
  next hlt =>
    have hset : Os.setLen ioErr 0 (before.length + body.length) os.pop =
        (.ok (), os.pop.pop.setContents 0 ((os.contents 0).setLen (before.length + body.length))) := by
      rw [Os.setLen, hanswer']
      rfl
    have hsync : (os.pop.pop.setContents 0 ((os.contents 0).setLen
        (before.length + body.length))).answer = .done := by
      change os.plan.tail.tail.headD .done = _
      rw [hplan]
      rfl
    rw [Effect.bind_apply_of_ok hset, Effect.bind_apply_of_ok (Os.sync_of_done hsync)]
    change Os.contents (Os.setInode _ _ _) 0 = _
    rw [Os.contents_setInode_self, Os.contents_setContents_self, Bytes.setLen,
      Nat.sub_eq_zero_of_le hlt.le, List.replicate_zero, List.append_nil, hfile,
      ← List.append_assoc, List.take_left' List.length_append]
  next hge =>
    have hnil : tail = [] := by
      rw [← List.length_eq_zero_iff]
      omega
    change os.contents 0 = _
    rw [hfile, hnil, List.append_nil]

/-- Every step that writes nothing behind left-over bytes keeps the invariant. -/
theorem Ok.step {s s' : WalRun} {a : WalStep} (h : s.Ok) (hbehind : s.Behind a)
    (hs : s.step a = some s') : s'.Ok := by
  cases a with
  | commit r fault =>
    obtain rfl := Option.some.inj hs
    have hbehind : s.Clean ∨ ¬r.Fits ∨ fault = some 0 := hbehind
    rcases Wal.append_cases 0 r (s.os.withPlan (faultPlan fault)) with
      ⟨-, e, happend⟩ | ⟨-, happend, -⟩ | ⟨hfits, n, hn, happend, hle⟩ |
      ⟨hfits, -, hdone, happend⟩
    · rw [happend]
      exact h
    · rw [happend]
      exact h
    · rw [happend]
      refine h.torn hfits (p := (Wal.frame r.serialize).take n) ?_ rfl rfl (List.take_prefix ..) ?_ ?_
      · exact Os.contents_setContents_self ..
      · rw [List.length_take]
        omega
      · rcases hbehind with hclean | hfits' | rfl
        · exact .inl hclean
        · exact absurd hfits hfits'
        · right
          rw [Nat.le_zero.mp (hle 0 rfl), List.take_zero]
    · have hanswer : ((s.os.withPlan (faultPlan fault)).pop.pop.setContents 0
          (s.file ++ Wal.frame r.serialize)).answer = .done := by
        cases fault <;> rfl
      have hsync := @Os.sync_of_done _ ioErr 0 _ hanswer
      have hok : Wal.append 0 r (s.os.withPlan (faultPlan fault)) = (.ok (), _) := happend.trans hsync
      rw [hok]
      refine h.appended hfits ?_ rfl rfl ?_
      · change Os.contents (Os.setInode _ _ _) 0 = _
        rw [Os.contents_setInode_self, Os.contents_setContents_self]
      · rcases hbehind with hclean | hfits' | rfl
        · exact hclean
        · exact absurd hfits hfits'
        · cases hdone
  | reopen =>
    obtain rfl := Option.some.inj hs
    obtain ⟨before, body, tail, hfile, hstart, hbody, -, hreplay⟩ := h.replayFrom
    refine ⟨before, body, [], ?_, hstart, hbody, rfl⟩
    rw [List.append_nil]
    exact file_recover hfile rfl (by rw [hstart]; exact hreplay)

/-! ## Runs -/

/-- **Failed appends.** In every run of commits and reopens from an opened container in which nothing
is written behind the bytes of a failed append, replay returns exactly the records of the commits
that succeeded, in order. -/
theorem replay_eq_committed (s : WalRun) (hs : s.Opened) (steps : List WalStep)
    (hbehind : Run.EachStep step Behind s steps) (s' : WalRun) (hrun : Run.run step s steps = some s') :
    (Wal.replayFrom s'.file s'.start).1 = s'.committed := by
  obtain ⟨_, _, _, _, _, _, _, hreplay⟩ :=
    (Run.invariant (fun _ _ _ ↦ Ok.step) hs.ok hbehind hrun).replayFrom
  rw [hreplay]

/-- An empty log. -/
def empty : WalRun where
  os := {}
  start := 0
  committed := []

theorem opened_empty : empty.Opened where
  start_le := le_rfl
  clean := rfl
  committed := rfl

def putRecord (k v : Bytes) : WalRecord := ⟨[(k, some v)]⟩

/-- A commit that fails after eleven bytes, a reopen, and a commit that succeeds. -/
theorem replay_eq_committed_reopened :
    ∃ s, Run.run step empty [.commit (putRecord [1] [2]) none, .commit (putRecord [3] [4]) (some 11),
        .reopen, .commit (putRecord [5] [6]) none] = some s ∧
      s.committed = [putRecord [1] [2], putRecord [5] [6]] ∧
      (Wal.replayFrom s.file s.start).1 = s.committed := by
  refine ⟨_, rfl, by decide +kernel, ?_⟩
  refine replay_eq_committed empty opened_empty [.commit (putRecord [1] [2]) none,
    .commit (putRecord [3] [4]) (some 11), .reopen, .commit (putRecord [5] [6]) none] ?_ _ rfl
  decide +kernel

/-- A commit that fails after one byte and then a commit that succeeds: its record is not found. -/
theorem replay_ne_committed_behind :
    ¬∀ (s : WalRun), s.Opened → ∀ (steps : List WalStep) (s' : WalRun),
      Run.run step s steps = some s' → (Wal.replayFrom s'.file s'.start).1 = s'.committed := by
  intro h
  have hrun := h empty opened_empty
    [.commit (putRecord [3] [4]) (some 1), .commit (putRecord [5] [6]) none] _ rfl
  revert hrun
  decide +kernel

end WalRun
