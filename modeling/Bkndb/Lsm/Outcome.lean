import Bkndb.Lsm.ClientRun

/-!
# What a commit reports

A commit returns `Ok` or an error, and its caller goes by that. Here a run keeps, beside the engine,
which batches were given to commits and which of them were acknowledged; what a transaction reads,
and what it reads after another open, is compared with these.

## Where a result can be wrong

A commit is decided when its record is in the log, but its result is not: the sync of the record may
still fail, and so may the flush and the merge that the commit goes on to. Then the caller is told
of an error, and the batch is there. `Settles` asks that neither happens.

A failed merge can do more. Once the new file has the name, the engine writes on to the old one
until it has switched, and what it writes there after a failure has no name any more.

## Main results

* `step_cases`: what a step does to the batches and to the map.
* `allOrNothing_of_settles`: commits are all or nothing in their results.
* `present_of_harmless`: every commit that returned `Ok` is there when the file is opened again.
* `not_present_syncFails`: a commit that is lost behind a failed merge.
-/

open Layers

namespace Lsm

/-- The map after these batches. -/
def mapOf (batches : List Pending) : OrdMap Bytes Bytes := batches.foldl applyBatch ∅

theorem mapOf_snoc (batches : List Pending) (pending : Pending) :
    mapOf (batches ++ [pending]) = applyBatch (mapOf batches) pending := by
  rw [mapOf, List.foldl_append]
  rfl

end Lsm

section

variable [Lz4] [BloomSizing]

open Lsm

structure CommitRun where
  engine : SurvivalRun
  /-- The batch of the commit under way, once its record is in the log. -/
  batch : Option Pending
  /-- The batches of the commits that returned `Ok`, in order. A commit that a kill has cut short
  returns nothing, and is counted if its record is in the log. -/
  acknowledged : List Pending
  /-- The batches of all commits, in order. -/
  asked : List Pending

namespace CommitRun

/-- The engine before a step, no call of which has failed yet. -/
def ready (r : CommitRun) : SurvivalRun :=
  { r.engine with sys := { r.engine.sys with os := { r.engine.sys.os with failed := false } } }

/-- The batches that count once the operation under way has returned `Ok`. -/
def counted (r : CommitRun) : List Pending := r.acknowledged ++ r.batch.toList

/-- The operation under way returns `Ok`. -/
def acknowledge (r : CommitRun) : CommitRun :=
  { r with acknowledged := r.counted, batch := none }

/-- The engine has run the first section of a commit: the record is in the log, or the commit is
over. -/
def afterAppend (r : CommitRun) (pending : Pending) (engine : SurvivalRun) : CommitRun :=
  match engine.pc with
  | .logged _ => { r with engine, batch := some pending, asked := r.asked ++ [pending] }
  | _ =>
    { r with
      engine
      acknowledged := if pending.isEmpty then r.acknowledged ++ [pending] else r.acknowledged
      asked := r.asked ++ [pending] }

/-- The engine has run a section with this result: the operation has returned `Ok`, goes on, or has
failed. -/
def afterSection (r : CommitRun) (engine : SurvivalRun) : Except BknError WriterPc → CommitRun
  | .ok .idle => acknowledge { r with engine }
  | .ok _ => { r with engine }
  | .error _ => { r with engine, batch := none }

def step (r : CommitRun) (a : SurvivalStep) : Option CommitRun :=
  (r.ready.step a).map fun engine ↦
    match a with
    | .commit pending _ => r.afterAppend pending engine
    | .forceCompact => { r with engine }
    | .advance plan => r.afterSection engine (Lsm.advance r.engine.pc (r.ready.planned plan)).1
    | .kill _ => acknowledge { r with engine }

/-- A database that was just made. -/
structure Opened (r : CommitRun) : Prop where
  engine : r.engine.Opened
  batch : r.batch = none
  acknowledged : r.acknowledged = []
  asked : r.asked = []

/-- Nothing that a failed step has left behind is in the way. -/
def Harmless (r : CommitRun) (a : SurvivalStep) : Prop := r.ready.Harmless a

instance (r : CommitRun) (a : SurvivalStep) : Decidable (Harmless r a) :=
  inferInstanceAs (Decidable (r.ready.Harmless a))

/-- And a commit whose record is in the log goes through: its next section is not refused, and no
call fails in it. -/
def Settles (r : CommitRun) (a : SurvivalStep) : Prop :=
  r.Harmless a ∧
    match a with
    | .advance plan => r.batch = none ∨ Goes false (r.ready.planned plan) r.engine.pc
    | _ => True

instance (r : CommitRun) : (a : SurvivalStep) → Decidable (Settles r a)
  | .advance _ => inferInstanceAs (Decidable (_ ∧ (_ ∨ _)))
  | .commit .. | .forceCompact | .kill _ => inferInstanceAs (Decidable (_ ∧ True))

/-- When the file at the path is opened again, a transaction reads this map. -/
def Reopens (r : CommitRun) (D : OrdMap Bytes Bytes) : Prop :=
  ∀ options, ∃ engine, r.engine.step (.kill options) = some engine ∧
    (beginRead engine.sys.backend).Reads D

/-- **Every commit that returned `Ok` is present** when the file is opened again, in its place among
the batches that are. -/
def Present (r : CommitRun) : Prop :=
  ∃ batches, r.acknowledged.Sublist batches ∧ batches.Sublist r.asked ∧ r.Reopens (mapOf batches)

/-! ## What a step does -/

/-- The commit under way has its batch in the log, and between two operations there is none. -/
structure Tracks (r : CommitRun) : Prop where
  logged : ∀ pending, r.engine.pc = .logged pending → r.batch = some pending
  returned : r.engine.pc = .idle → r.batch = none

/-- What a step does to the batches and to the map. -/
inductive Change (r : CommitRun) (a : SurvivalStep) (r' : CommitRun) : Prop
  /-- A commit has logged its batch, or had nothing to log. -/
  | logged (pending : Pending) (hmap : r'.engine.survivors = applyBatch r.engine.survivors pending)
    (hcounted : r'.counted = r.counted ++ [pending]) (hasked : r'.asked = r.asked ++ [pending])
  /-- A commit has failed before its record was complete. -/
  | failed (pending : Pending) (hmap : r'.engine.survivors = r.engine.survivors)
    (hcounted : r'.counted = r.counted) (hasked : r'.asked = r.asked ++ [pending])
  | kept (hmap : r'.engine.survivors = r.engine.survivors) (hcounted : r'.counted = r.counted)
    (hasked : r'.asked = r.asked)
  /-- A section has failed. -/
  | gaveUp (plan : List Answer) (e : BknError) (ha : a = .advance plan)
    (hrun : (Lsm.advance r.engine.pc (r.ready.planned plan)).1 = .error e)
    (hmap : r'.engine.survivors = r.engine.survivors)
    (hcounted : r'.counted = r.acknowledged) (hasked : r'.asked = r.asked)

/-- What holds after a step. -/
structure Stepped (r : CommitRun) (a : SurvivalStep) (r' : CommitRun) : Prop extends Tracks r' where
  change : Change r a r'
  committed : r'.engine.committed = r.engine.survivors

variable {r r' : CommitRun} {a : SurvivalStep}

omit [Lz4] [BloomSizing] in
theorem applyBatch_of_isEmpty (D : OrdMap Bytes Bytes) {pending : Pending}
    (h : pending.isEmpty = true) : applyBatch D pending = D := by
  rw [OrdMap.isEmpty_iff.mp h]
  rfl

omit [Lz4] [BloomSizing] in
theorem Tracks.of_idle (hpc : r.engine.pc = .idle) (hbatch : r.batch = none) : r.Tracks := by
  refine ⟨fun p hp ↦ ?_, fun _ ↦ hbatch⟩
  cases hpc.symm.trans hp

omit [Lz4] [BloomSizing] in
theorem Tracks.of_running (hpc : r.engine.pc ≠ .idle) (hne : ∀ p, r.engine.pc ≠ .logged p) :
    r.Tracks :=
  ⟨fun p hp ↦ absurd hp (hne p), fun h ↦ absurd h hpc⟩

omit [Lz4] [BloomSizing] in
theorem Tracks.survivors (h : r.Tracks) (hbatch : r.batch = none) :
    r.engine.survivors = r.engine.committed := by
  refine mapAfter_of_ne_logged (fun pending hpc ↦ ?_) _
  cases hbatch.symm.trans (h.logged pending hpc)

omit [Lz4] [BloomSizing] in
theorem afterAppend_of_logged {engine : SurvivalRun} {p : Pending} (hpc : engine.pc = .logged p)
    (pending : Pending) : r.afterAppend pending engine =
      { r with engine, batch := some pending, asked := r.asked ++ [pending] } := by
  rw [afterAppend, hpc]

omit [Lz4] [BloomSizing] in
theorem afterAppend_of_idle {engine : SurvivalRun} (hpc : engine.pc = .idle) (pending : Pending) :
    r.afterAppend pending engine =
      { r with
        engine
        acknowledged := if pending.isEmpty then r.acknowledged ++ [pending] else r.acknowledged
        asked := r.asked ++ [pending] } := by
  rw [afterAppend, hpc]

theorem Tracks.commit {pending : Pending} {plan : List Answer} (h : r.Tracks)
    (hs : r.step (.commit pending plan) = some r') :
    Stepped r (.commit pending plan) r' := by
  obtain ⟨engine, hstep, rfl⟩ := Option.map_eq_some_iff.mp hs
  dsimp only
  rw [SurvivalRun.step] at hstep
  split at hstep
  next hpc =>
    have hidle : r.engine.pc = .idle := hpc
    have hbatch := h.returned hidle
    have hmap := h.survivors hbatch
    split at hstep
    next hempty =>
      obtain rfl := Option.some.inj hstep
      rw [afterAppend_of_idle hpc, if_pos hempty]
      refine ⟨.of_idle hidle hbatch, .logged pending ?_ ?_ rfl, hmap.symm⟩
      · rw [applyBatch_of_isEmpty _ hempty]
        rfl
      · simp [counted, hbatch]
    next hne =>
      split at hstep
      next sys hrun =>
        obtain rfl := Option.some.inj hstep
        rw [afterAppend_of_logged rfl]
        refine ⟨⟨fun p hp ↦ ?_, fun h ↦ ?_⟩, .logged pending ?_ ?_ rfl, hmap.symm⟩
        · cases hp
          rfl
        · cases h
        · rw [hmap]
          rfl
        · simp [counted, hbatch]
      next e sys hrun =>
        obtain rfl := Option.some.inj hstep
        rw [@afterAppend_of_idle r ⟨sys, r.ready.pc, r.ready.committed⟩ hpc, if_neg hne]
        exact ⟨.of_idle hidle hbatch, .failed pending rfl rfl rfl, hmap.symm⟩
  next => cases hstep

theorem advance_logged_ne_error (pending : Pending) (s : LsmSystem) (e : BknError) :
    (Lsm.advance (.logged pending) s).1 ≠ .error e := by
  rw [Lsm.advance, applyPending, bind_assoc, Effect.bind_apply_of_ok (modifyState_apply ..),
    bind_assoc, Effect.bind_apply_of_ok (Effect.get_apply _), pure_bind]
  split <;> exact Except.ok_ne_error _ e

theorem stepped_of_advance {plan : List Answer} (hs : r.step (.advance plan) = some r') :
    Stepped r (.advance plan) r' := by
  obtain ⟨engine, hstep, rfl⟩ := Option.map_eq_some_iff.mp hs
  dsimp only
  rw [SurvivalRun.step] at hstep
  split at hstep
  next pc sys hrun =>
    obtain rfl := Option.some.inj hstep
    have hmap : mapAfter r.engine.survivors pc = r.engine.survivors := mapAfter_of_advance hrun _
    have hne := ne_logged_of_advance hrun
    change Lsm.advance r.engine.pc (r.ready.planned plan) = _ at hrun
    rw [hrun]
    cases pc with
    | idle => exact ⟨.of_idle rfl rfl, .kept hmap (List.append_nil _) rfl, rfl⟩
    | logged pending => exact absurd rfl (hne pending)
    | _ =>
      refine ⟨.of_running (fun h ↦ ?_) (fun p h ↦ ?_), .kept hmap rfl rfl, rfl⟩
      · cases h
      · cases h
  next e sys hrun =>
    obtain rfl := Option.some.inj hstep
    change Lsm.advance r.engine.pc (r.ready.planned plan) = _ at hrun
    rw [hrun]
    have hmap : r.engine.survivors = r.engine.committed := by
      refine mapAfter_of_ne_logged (fun pending hpc ↦ ?_) _
      rw [hpc] at hrun
      exact advance_logged_ne_error pending _ e (congrArg Prod.fst hrun)
    refine ⟨.of_idle rfl rfl, ?_, hmap.symm⟩
    exact .gaveUp plan e rfl (congrArg Prod.fst hrun) hmap.symm (List.append_nil _) rfl

/-- **What a step does** to the batches and to the map. -/
theorem Tracks.step (h : r.Tracks) (hs : r.step a = some r') : Stepped r a r' := by
  cases a with
  | commit pending plan => exact h.commit hs
  | advance plan => exact stepped_of_advance hs
  | forceCompact =>
    obtain ⟨engine, hstep, rfl⟩ := Option.map_eq_some_iff.mp hs
    rw [SurvivalRun.step] at hstep
    split at hstep
    next hpc =>
      have hidle : r.engine.pc = .idle := hpc
      obtain rfl := Option.some.inj hstep
      have hmap := h.survivors (h.returned hidle)
      refine ⟨.of_running (fun h ↦ ?_) (fun p h ↦ ?_), .kept hmap.symm rfl rfl, hmap.symm⟩
      · cases h
      · cases h
    next => cases hstep
  | kill options =>
    obtain ⟨engine, hstep, rfl⟩ := Option.map_eq_some_iff.mp hs
    rw [SurvivalRun.step] at hstep
    split at hstep
    next =>
      obtain rfl := Option.some.inj hstep
      exact ⟨.of_idle rfl rfl, .kept rfl (List.append_nil _) rfl, rfl⟩
    next => cases hstep

theorem inv_step (h : r.engine.Inv) (hharmless : r.Harmless a) (hs : r.step a = some r') :
    r'.engine.Inv := by
  obtain ⟨engine, hstep, rfl⟩ := Option.map_eq_some_iff.mp hs
  have hready : r.ready.Inv := AtPlace.elsewhere h ⟨fun _ _ ↦ rfl, fun _ _ _ ↦ rfl, le_rfl⟩
  have hinv : engine.Inv := hready.step hharmless hstep
  cases a with
  | commit pending plan =>
    dsimp only [afterAppend]
    split <;> exact hinv
  | advance plan =>
    dsimp only
    rcases (Lsm.advance r.engine.pc (r.ready.planned plan)).1 with e | pc
    · exact hinv
    · cases pc <;> exact hinv
  | forceCompact => exact hinv
  | kill options => exact hinv

/-! ## The results of commits -/

/-- What is there is what counts. -/
structure Exact (r : CommitRun) : Prop extends Tracks r where
  engine : r.engine.Inv
  map : r.engine.survivors = mapOf r.counted
  committed : r.engine.committed = mapOf r.acknowledged ∨ r.engine.committed = mapOf r.counted

theorem Exact.map_step (h : r.Exact) (hsettles : r.Settles a) (hs : r.step a = some r') :
    r'.engine.survivors = mapOf r'.counted := by
  cases (h.toTracks.step hs).change with
  | logged pending hmap hcounted _ => rw [hmap, h.map, hcounted, mapOf_snoc]
  | failed pending hmap hcounted _ => rw [hmap, h.map, hcounted]
  | kept hmap hcounted _ => rw [hmap, h.map, hcounted]
  | gaveUp plan e ha hrun hmap hcounted _ =>
    subst ha
    rcases hsettles.2 with hbatch | ⟨hun, hok⟩
    · rw [hmap, h.map, hcounted, counted, hbatch, Option.toList_none, List.append_nil]
    · -- a section that is not refused, and in which no call fails, does not fail
      have hplace : AtPlace false r.engine.sys r.engine.committed r.engine.pc := h.engine
      have hready : AtPlace false (r.ready.planned plan) r.engine.committed r.engine.pc :=
        hplace.elsewhere ⟨fun _ _ ↦ rfl, fun _ _ _ ↦ rfl, le_rfl⟩
      have hunrefused := hun.resolve_right fun h ↦ Bool.false_ne_true h.1
      exact absurd hrun (hready.ne_error_advance hunrefused hok e)

theorem Exact.step (h : r.Exact) (hsettles : r.Settles a) (hs : r.step a = some r') :
    r'.Exact := by
  have hstepped := h.toTracks.step hs
  have hmap := h.map_step hsettles hs
  refine ⟨hstepped.toTracks, inv_step h.engine hsettles.1 hs, hmap, ?_⟩
  cases hbatch : r'.batch with
  | none => exact .inr ((hstepped.toTracks.survivors hbatch).symm.trans hmap)
  | some p =>
    rw [hstepped.committed, h.map]
    cases hstepped.change with
    | logged pending _ hcounted _ =>
      rw [counted, hbatch] at hcounted
      exact .inl (by rw [(List.append_inj' hcounted rfl).1])
    | failed pending _ hcounted _ => exact .inr (by rw [hcounted])
    | kept _ hcounted _ => exact .inr (by rw [hcounted])
    | gaveUp plan e _ _ hmap' _ _ => exact .inr (by rw [← h.map, ← hmap', hmap])

theorem reopens_of_inv (h : r.engine.Inv) : r.Reopens r.engine.survivors := h.survives.reopens

omit [BloomSizing] in
theorem Opened.exact (h : r.Opened) : r.Exact := by
  have hcounted : r.counted = [] := by rw [counted, h.acknowledged, h.batch]; rfl
  refine ⟨⟨fun pending hpc ↦ ?_, fun _ ↦ h.batch⟩, h.engine.inv, ?_, .inl ?_⟩
  · cases h.engine.pc.symm.trans hpc
  · rw [hcounted, SurvivalRun.survivors, h.engine.pc, h.engine.committed]
    rfl
  · rw [h.acknowledged, h.engine.committed]
    rfl

/-- What is there are batches of commits, in order, among them those that count. -/
structure Kept (r : CommitRun) : Prop extends Tracks r where
  engine : r.engine.Inv
  batches : ∃ batches, r.counted.Sublist batches ∧ batches.Sublist r.asked ∧
    r.engine.survivors = mapOf batches

theorem Kept.step (h : r.Kept) (hharmless : r.Harmless a) (hs : r.step a = some r') : r'.Kept := by
  have hstepped := h.toTracks.step hs
  refine ⟨hstepped.toTracks, inv_step h.engine hharmless hs, ?_⟩
  obtain ⟨batches, hcount, hask, hmap⟩ := h.batches
  cases hstepped.change with
  | logged pending hmap' hcounted hasked =>
    refine ⟨batches ++ [pending], ?_, ?_, by rw [hmap', hmap, mapOf_snoc]⟩
    · exact hcounted ▸ hcount.append_right [pending]
    · exact hasked ▸ hask.append_right [pending]
  | failed pending hmap' hcounted hasked =>
    refine ⟨batches, hcounted ▸ hcount, ?_, hmap'.trans hmap⟩
    exact hasked ▸ hask.trans (List.sublist_append_left ..)
  | kept hmap' hcounted hasked =>
    exact ⟨batches, hcounted ▸ hcount, hasked ▸ hask, hmap'.trans hmap⟩
  | gaveUp plan e _ _ hmap' hcounted hasked =>
    refine ⟨batches, ?_, hasked ▸ hask, hmap'.trans hmap⟩
    exact hcounted ▸ (List.sublist_append_left ..).trans hcount

omit [BloomSizing] in
theorem Opened.kept (h : r.Opened) : r.Kept := by
  have hcounted : r.counted.Sublist r.asked := by
    rw [counted, h.acknowledged, h.batch, h.asked]
    exact .refl _
  exact ⟨h.exact.toTracks, h.engine.inv, r.counted, .refl _, hcounted, h.exact.map⟩

/-- **No commit is lost**, whatever merge fails at whatever call: in every run of a database that
was just made, with any failing calls and kills, in which no step builds on what a failed one has
left behind, every commit that returned `Ok` is present when the file is opened again. -/
theorem present_of_harmless (r : CommitRun) (hr : r.Opened) (steps : List SurvivalStep)
    (hharmless : Run.EachStep step Harmless r steps) (r' : CommitRun)
    (hrun : Run.run step r steps = some r') : r'.Present := by
  have h' := Run.invariant (fun _ _ _ ↦ Kept.step) hr.kept hharmless hrun
  obtain ⟨batches, hcount, hask, hmap⟩ := h'.batches
  exact ⟨batches, (List.sublist_append_left ..).trans hcount, hask, hmap ▸ reopens_of_inv h'.engine⟩

end CommitRun

end

/-! ## Runs -/

namespace CommitRun

open Lsm Lsm.Sample

/-- The engine with an empty database, and no commit yet. -/
def start (s : LsmSystem) : CommitRun := ⟨⟨s, .idle, ∅⟩, none, [], []⟩

theorem opened_start {s : LsmSystem} (h : Made s) : (start s).Opened :=
  ⟨⟨h, rfl, rfl⟩, rfl, rfl, rfl⟩

/-- No commit has returned `Ok`, and none is under way, but a transaction finds a value. -/
def showsFailed (r : CommitRun) : Bool :=
  r.acknowledged.isEmpty && r.batch.isNone &&
    ((beginRead r.engine.sys.backend).get "t" [7]).toOption == some (some [1])

/-- The merge of a forced compaction fails, and a commit follows. -/
def mergeFailsSteps : List SurvivalStep :=
  [.commit (putOne [7] [1]) [], .advance [], .forceCompact, .advance [], .advance [], .advance [],
    .advance [], .advance [], .advance [.fail 0], .commit (putOne [8] [2]) [], .advance []]

/-- Flush late. -/
def lazyOptions : LsmOptions := ⟨100, 2, 16, true⟩

theorem present_of_harmless_mergeFails : ∃ r r', Run.run step r mergeFailsSteps = some r' ∧
    r'.acknowledged.length = 2 ∧ r'.Present := by
  have hgoes : (madeSystem lazyOptions).any (fun s ↦
      decide (Run.EachStep step Harmless (start s) mergeFailsSteps) &&
        (Run.run step (start s) mergeFailsSteps).any fun r ↦
          decide (r.acknowledged.length = 2)) = true := by decide +kernel
  obtain ⟨s, hmade, hgoes⟩ := (Option.any_eq_true _ _).mp hgoes
  rw [Bool.and_eq_true, decide_eq_true_iff] at hgoes
  obtain ⟨hharmless, hlen⟩ := hgoes
  obtain ⟨r', hrun, hlen⟩ := (Option.any_eq_true _ _).mp hlen
  exact ⟨_, r', hrun, of_decide_eq_true hlen, present_of_harmless (start s)
    (opened_start (made_of_madeSystem hmade)) mergeFailsSteps hharmless r' hrun⟩

/-- The merged file has the name, and then the sync of the directory fails. -/
def syncFailsSteps : List SurvivalStep :=
  [.commit (putOne [7] [1]) [], .advance [], .forceCompact, .advance [], .advance [], .advance [],
    .advance [], .advance [], .advance [], .advance [.fail 0]]

/-- Two more steps: a commit that returns `Ok`. -/
def commitSteps : List SurvivalStep := [.commit (putOne [8] [2]) [], .advance []]

section

variable {r r' : CommitRun} {D : OrdMap Bytes Bytes}

/-- The file at the path stands for the map, and the engine writes to another one. -/
def Apart (s : LsmSystem) (D : OrdMap Bytes Bytes) : Prop :=
  ∃ (i : ℕ) (v : Image), i ≠ s.backend.container.file ∧ Placed s.os s.backend.path i ∧
    s.os.contents i = v.file ∧ v.Denotes D

theorem Apart.congr {s s' : LsmSystem} (h : Apart s D) (hpath : s'.backend.path = s.backend.path)
    (hcontainer : s'.backend.container = s.backend.container) (hnames : s'.os.names = s.os.names)
    (hnext : s'.os.next = s.os.next) (hinodes : s'.os.inodes = s.os.inodes) : Apart s' D := by
  obtain ⟨i, v, hne, hplaced, hcontents, hdenotes⟩ := h
  refine ⟨i, v, hcontainer ▸ hne, ⟨?_, hnext ▸ hplaced.lt_next, ?_⟩, ?_, hdenotes⟩
  · rw [hnames, hpath, hplaced.named]
  · rw [hnames, hpath, hnext]
    exact hplaced.apart
  · rw [Os.contents, hinodes]
    exact hcontents

theorem Apart.append {s : LsmSystem} (h : Apart s D) (pending : Pending) :
    Apart (appendRecord pending s).2 D := by
  obtain ⟨i, v, hne, hplaced, hcontents, hdenotes⟩ := h
  obtain ⟨hbackend, htouches⟩ := appendRecord_touches pending s
  refine ⟨i, v, hbackend ▸ hne, hbackend ▸ hplaced.touches htouches, ?_, hdenotes⟩
  rw [Os.contents, htouches.others i hne]
  exact hcontents

theorem Apart.commit {pending : Pending} {plan : List Answer} (h : Apart r.engine.sys D)
    (hs : r.step (.commit pending plan) = some r') : Apart r'.engine.sys D ∧
      (r'.engine.pc = .idle ∨ r'.engine.pc = .logged pending) := by
  obtain ⟨engine, hstep, rfl⟩ := Option.map_eq_some_iff.mp hs
  have hengine : (r.afterAppend pending engine).engine = engine := by
    rw [afterAppend]
    split <;> rfl
  dsimp only
  rw [hengine]
  have hready : Apart (r.ready.planned plan) D := h.congr rfl rfl rfl rfl rfl
  have happend := hready.append pending
  rw [SurvivalRun.step] at hstep
  split at hstep
  next hpc =>
    split at hstep
    next =>
      obtain rfl := Option.some.inj hstep
      exact ⟨h.congr rfl rfl rfl rfl rfl, .inl hpc⟩
    next =>
      split at hstep
      next sys hrun =>
        obtain rfl := Option.some.inj hstep
        rw [hrun] at happend
        exact ⟨happend, .inr rfl⟩
      next e sys hrun =>
        obtain rfl := Option.some.inj hstep
        rw [hrun] at happend
        exact ⟨happend, .inl hpc⟩
  next => cases hstep

theorem Apart.advance {pending : Pending} {plan : List Answer} (h : Apart r.engine.sys D)
    (hpc : r.engine.pc = .idle ∨ r.engine.pc = .logged pending)
    (hs : r.step (.advance plan) = some r') : Apart r'.engine.sys D := by
  obtain ⟨engine, hstep, rfl⟩ := Option.map_eq_some_iff.mp hs
  have hengine : ∀ x, (r.afterSection engine x).engine = engine := by
    rintro (e | pc)
    · rfl
    · cases pc <;> rfl
  dsimp only
  rw [hengine]
  have hkept : ∀ state : EngineState, Apart { r.ready.planned plan with
      backend := { r.engine.sys.backend with state } } D :=
    fun _ ↦ h.congr rfl rfl rfl rfl rfl
  rw [SurvivalRun.step] at hstep
  rcases hpc with hpc | hpc
  · have hready : r.ready.pc = .idle := hpc
    rw [hready, Lsm.advance] at hstep
    obtain rfl := Option.some.inj hstep
    exact hkept r.engine.sys.backend.state
  · have hready : r.ready.pc = .logged pending := hpc
    rw [hready, Lsm.advance, applyPending, bind_assoc,
      Effect.bind_apply_of_ok (modifyState_apply ..), bind_assoc,
      Effect.bind_apply_of_ok (Effect.get_apply _), pure_bind] at hstep
    split at hstep
    next hrun =>
      obtain rfl := Option.some.inj hstep
      split at hrun <;> cases hrun <;> exact hkept _
    next hrun =>
      split at hrun <;> cases hrun

theorem Apart.reopens (h : Apart r.engine.sys D) : r.Reopens D := by
  intro options
  obtain ⟨i, v, -, hplaced, hcontents, hdenotes⟩ := h
  obtain ⟨b, os', hopen, -, -, hrest⟩ := @openWithOptions_placed _ (r.engine.sys.os.withPlan [])
    r.engine.sys.backend.path i v _ rfl ⟨hplaced.named, hplaced.lt_next, hplaced.apart⟩ hcontents
    hdenotes options
  rw [SurvivalRun.step, hopen]
  exact ⟨_, rfl, ReadTx.reads hrest.live⟩

end

/-- A commit has returned `Ok`, and its key was not in the map. -/
def commitsBeside (r₁ r₂ : CommitRun) : Bool :=
  decide (r₁.engine.sys.os.names r₁.engine.sys.backend.path ≠
      some r₁.engine.sys.backend.container.file) &&
    decide (r₂.acknowledged.length = r₂.asked.length) &&
    (Keys.tableOf r₁.engine.survivors (Keys.prefixBytes "t")).get? [8] == none &&
    (Keys.tableOf (mapOf r₂.acknowledged) (Keys.prefixBytes "t")).get? [8] == some [2]

/-- **A commit is lost** when it follows a merge that has failed at its last call. -/
theorem not_present_syncFails : ¬∀ r : CommitRun, r.Opened → ∀ (steps : List SurvivalStep)
    (r' : CommitRun), Run.run step r steps = some r' → r'.Present := by
  intro h
  have hgoes : (madeSystem lazyOptions).any (fun s ↦
      decide (Run.EachStep step Harmless (start s) syncFailsSteps) &&
        (Run.run step (start s) syncFailsSteps).any fun r₁ ↦
          (Run.run step r₁ commitSteps).any fun r₂ ↦ commitsBeside r₁ r₂) = true := by
    decide +kernel
  obtain ⟨s, hmade, hgoes⟩ := (Option.any_eq_true _ _).mp hgoes
  obtain ⟨hharmless, hgoes⟩ := Bool.and_eq_true_iff.mp hgoes
  obtain ⟨r₁, hrun₁, hgoes⟩ := (Option.any_eq_true _ _).mp hgoes
  obtain ⟨r₂, hrun₂, hbeside⟩ := (Option.any_eq_true _ _).mp hgoes
  have hopened := opened_start (made_of_madeSystem hmade)
  have hrun : Run.run step (start s) (syncFailsSteps ++ commitSteps) = some r₂ := by
    rw [Run.run_append, hrun₁]
    exact hrun₂
  obtain ⟨batches, hack, hasked, hreopens⟩ := h (start s) hopened _ r₂ hrun
  rw [commitsBeside] at hbeside
  simp only [Bool.and_eq_true, decide_eq_true_eq, beq_iff_eq] at hbeside
  obtain ⟨⟨⟨hnamed, hlen⟩, hbefore⟩, hafter⟩ := hbeside
  obtain rfl := hack.eq_of_length_le (hlen ▸ hasked.length_le)
  -- the file at the path is the merged one, which neither step writes to
  have hinv : r₁.engine.Inv :=
    (Run.invariant (fun _ _ _ ↦ Kept.step) hopened.kept (of_decide_eq_true hharmless) hrun₁).engine
  obtain ⟨i, v, hplaced, hcontents, hdenotes⟩ := AtPlace.image hinv
  have hapart₁ : Apart r₁.engine.sys r₁.engine.survivors :=
    ⟨i, v, fun hi ↦ hnamed (hi ▸ hplaced.named), hplaced, hcontents, hdenotes⟩
  obtain ⟨ra, hcommit, hrun₂⟩ := Option.bind_eq_some_iff.mp hrun₂
  obtain ⟨rb, hadvance, hrun₂⟩ := Option.bind_eq_some_iff.mp hrun₂
  obtain rfl := Option.some.inj hrun₂
  obtain ⟨haparta, hpc⟩ := hapart₁.commit hcommit
  obtain ⟨engine, hopen, hreads⟩ := (haparta.advance hpc hadvance).reopens lazyOptions
  obtain ⟨engine', hopen', hreads'⟩ := hreopens lazyOptions
  obtain rfl := Option.some.inj (hopen.symm.trans hopen')
  have hget := hreads.get_eq "t" (by decide) [8]
  rw [hreads'.get_eq "t" (by decide) [8], hbefore, hafter] at hget
  cases hget

end CommitRun
