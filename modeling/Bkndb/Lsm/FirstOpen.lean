import Bkndb.Lsm.Session
import Bkndb.Lsm.TornHeader

/-!
# A crash during the first open

The first open of a path makes the file, writes a manifest behind the header area, waits until it is
durable, and then writes the header into the first slot. The process may be gone at any byte of
this. What is left is either an empty file, or a file that is long enough to have a header and may
have none.

## What the next open makes of it

An empty file is made a database again. A file with the complete header is the database. Every other
file is refused: with no header and a part of the manifest the file has two slots of zeros, and an
open that finds no valid slot takes the file for a corrupt one. A part of a header is no header
either, and from the magic to the end of the version it is one of an unknown format.

## Main results

* `interruptedOpen_eq`: what an interrupted open leaves behind.
* `opensEmpty_interruptedOpen_iff`: the next open gives an empty database exactly if nothing was
  written, or all of the header but its reserved bytes.
-/

open Container

namespace Lsm

/-! ## Interrupted opens

The open is run with a plan that fails a call, and the error is not looked at: the process is gone.
A write is interrupted after some of its bytes, or when all of them are written. -/

/-- Where the first open of a path is interrupted. -/
inductive FirstOpenCut where
  /-- These many bytes of the manifest are written. -/
  | manifest (n : ℕ)
  /-- The manifest is durable. -/
  | synced
  /-- These many bytes of the header are written. -/
  | header (n : ℕ)

namespace FirstOpenCut

/-- The calls up to there. -/
def plan : FirstOpenCut → List Answer
  | manifest n =>
    if n < bootstrapManifest.encode.length then List.replicate 6 .done ++ [.fail n]
    else List.replicate 7 .done ++ [.fail 0]
  | synced => List.replicate 8 .done ++ [.fail 0]
  | header n =>
    if n < headerSlotLen then List.replicate 9 .done ++ [.fail n]
    else List.replicate 10 .done ++ [.fail 0]

/-- The header that the first open writes. -/
def firstHeader : HeaderWrite := HeaderReady.write 0 1 bodyStart bootstrapManifest

/-- What is in the file then. -/
def file : FirstOpenCut → Bytes
  | manifest n => Bytes.writeAt [] bodyStart (bootstrapManifest.encode.take n)
  | synced => bootstrapFile
  | header n => tornHeader bootstrapFile firstHeader n

end FirstOpenCut

/-- The files when the process is gone during an open; from here on no call fails. -/
def interruptedOpen (path : String) (options : LsmOptions) (cut : FirstOpenCut) (os : Os) : Os :=
  { (openWithOptions path options (os.withPlan cut.plan)).2 with plan := [], failed := false }

/-! ### The calls one by one -/

/-- The files once the path has a file. -/
def madeFile (os : Os) (path : String) : Os :=
  { os.setInode os.next {} with
    next := os.next + 1
    names := Function.update (Function.update os.names path (some os.next))
      (compactionTmpPath path) none }

theorem contents_madeFile (os : Os) (path : String) : (madeFile os path).contents os.next = [] :=
  Os.contents_setInode_self os os.next {}

theorem call_planned (e : BknError) (os : Os) (rest : List Answer) :
    Os.call e (os.withPlan (.done :: rest)) = (.ok (), os.withPlan rest) := rfl

theorem sync_planned (e : BknError) (i : ℕ) (os : Os) (rest : List Answer) :
    Os.sync e i (os.withPlan (.done :: rest)) =
      (.ok (), (os.setInode i ⟨os.contents i, os.contents i⟩).withPlan rest) := rfl

theorem writeAll_planned (e : BknError) (i : ℕ) {off : ℕ} {b : Bytes} (os : Os)
    (rest : List Answer) (hroom : off + b.length ≤ Os.maxLen) :
    Os.writeAll e i off b (os.withPlan (.done :: rest)) =
      (.ok (), (os.setContents i ((os.contents i).writeAt off b)).withPlan rest) := by
  rw [Os.writeAll, Os.writeWith_eq_ok]
  exact ⟨rfl, hroom, rfl⟩

theorem writeAll_interrupted (e : BknError) (i off : ℕ) {b : Bytes} (os : Os) {n : ℕ}
    (hn : n < b.length) :
    Os.writeAll e i off b (os.withPlan [.fail n]) =
      (.error e,
        ((os.setContents i ((os.contents i).writeAt off (b.take n))).withPlan []).fail) := by
  rw [Os.writeAll, Os.writeWith]
  change (_, _) = _
  dsimp only
  rw [if_neg Bool.false_ne_true, Nat.min_eq_left (by omega)]
  rfl

/-- The open has made the file, and then it is interrupted. -/
theorem openWithOptions_interrupted {path : String} (options : LsmOptions) {os os' : Os}
    (hname : os.names path = none) {rest : List Answer} {e : BknError}
    (h : readOrBootstrap os.next ((madeFile os path).withPlan rest) = (.error e, os')) :
    openWithOptions path options (os.withPlan (.done :: .done :: .done :: .done :: rest)) =
      (.error e, os') := by
  set os₁ : Os := { os.setInode os.next {} with
    next := os.next + 1
    names := Function.update os.names path (some os.next) } with hos₁
  have hopen : Os.openFile ioErr path (os.withPlan (.done :: .done :: .done :: rest)) =
      (.ok os.next, os₁.withPlan (.done :: .done :: rest)) := by
    have hanswer : (os.withPlan (.done :: .done :: .done :: rest)).answer = .done := rfl
    have hname' : (os.withPlan (.done :: .done :: .done :: rest)).names path = none := hname
    rw [Os.openFile, hanswer, hname']
    rfl
  have hremove : (Os.removeFile ioErr (compactionTmpPath path)).ignore
      (os₁.withPlan (.done :: rest)) =
        ((.ok () : Except BknError Unit), (madeFile os path).withPlan rest) := rfl
  rw [openWithOptions, Effect.bind_apply_of_ok (call_planned ..), Effect.bind_apply_of_ok hopen,
    Effect.bind_apply_of_ok (call_planned ..), Effect.bind_apply_of_ok hremove,
    Effect.bind_apply_of_error h]

theorem readOrBootstrap_planned {os : Os} {i : ℕ} (hc : os.contents i = []) (rest : List Answer) :
    readOrBootstrap i (os.withPlan (.done :: .done :: rest)) =
      (do
        Os.writeAll ioErr i bodyStart bootstrapManifest.encode
        Os.sync ioErr i
        let (seq, slot) ← writeHeader i 0 1 bodyStart bootstrapManifest.encode
        return (bootstrapManifest, bootstrapManifest.encode.length, seq, slot))
          (os.withPlan rest) := by
  have hread : Os.read ioErr i (os.withPlan (.done :: .done :: rest)) =
      (.ok [], os.withPlan (.done :: rest)) := by
    rw [Os.read, Effect.bind_apply_of_ok (call_planned ..), ← hc]
    rfl
  have hnone : readHeader [] = .ok none := rfl
  rw [readOrBootstrap, Effect.bind_apply_of_ok hread, hnone,
    Effect.bind_apply_of_ok (Effect.ofExcept_apply _ _)]
  rfl

/-- The header's write comes after the seek. -/
theorem writeHeader_planned (i : ℕ) (os : Os) (rest : List Answer) :
    writeHeader i 0 1 bodyStart bootstrapManifest.encode (os.withPlan (.done :: rest)) =
      (do
        Os.writeAll ioErr i 0 FirstOpenCut.firstHeader.bytes
        Os.sync ioErr i
        return (1, 0)) (os.withPlan rest) := by
  have hnext : nextHeader 0 1 bodyStart bootstrapManifest.encode =
      .ok FirstOpenCut.firstHeader := rfl
  rw [writeHeader, hnext, Effect.bind_apply_of_ok (Effect.ofExcept_apply _ _),
    Effect.bind_apply_of_ok (call_planned ..)]
  rfl

/-- The file and its durable contents once the manifest is written. -/
theorem readOrBootstrap_written {os : Os} {i : ℕ} (hc : os.contents i = []) (rest : List Answer) :
    ∃ os' : Os, os'.contents i = bootstrapFile ∧ os'.names = os.names ∧ os'.next = os.next ∧
      readOrBootstrap i (os.withPlan (.done :: .done :: .done :: rest)) =
        (do
          Os.sync ioErr i
          let (seq, slot) ← writeHeader i 0 1 bodyStart bootstrapManifest.encode
          return (bootstrapManifest, bootstrapManifest.encode.length, seq, slot))
            (os'.withPlan rest) := by
  have hroom : bodyStart + bootstrapManifest.encode.length ≤ Os.maxLen := by decide +kernel
  refine ⟨os.setContents i ((os.contents i).writeAt bodyStart bootstrapManifest.encode), ?_, rfl,
    rfl, ?_⟩
  · rw [Os.contents_setContents_self, hc]
    rfl
  · rw [readOrBootstrap_planned hc, Effect.bind_apply_of_ok (writeAll_planned _ _ _ _ hroom)]

theorem readOrBootstrap_synced {os : Os} {i : ℕ} (hc : os.contents i = []) (rest : List Answer) :
    ∃ os' : Os, os'.contents i = bootstrapFile ∧ os'.names = os.names ∧ os'.next = os.next ∧
      readOrBootstrap i (os.withPlan (.done :: .done :: .done :: .done :: rest)) =
        (do
          let (seq, slot) ← writeHeader i 0 1 bodyStart bootstrapManifest.encode
          return (bootstrapManifest, bootstrapManifest.encode.length, seq, slot))
            (os'.withPlan rest) := by
  obtain ⟨os₁, hc₁, hnames, hnext, hrun⟩ := readOrBootstrap_written hc (.done :: rest)
  refine ⟨os₁.setInode i ⟨os₁.contents i, os₁.contents i⟩, ?_, hnames, hnext, ?_⟩
  · rw [Os.contents_setInode_self, hc₁]
  · rw [hrun, Effect.bind_apply_of_ok (sync_planned ..)]

/-- What an interrupted bootstrap leaves in the file. -/
theorem readOrBootstrap_interrupted {os : Os} {i : ℕ} (hc : os.contents i = [])
    (cut : FirstOpenCut) :
    ∃ e os', readOrBootstrap i (os.withPlan (cut.plan.drop 4)) = (.error e, os') ∧
      os'.contents i = cut.file ∧ os'.names = os.names ∧ os'.next = os.next := by
  have hlen : FirstOpenCut.firstHeader.bytes.length = headerSlotLen := length_encodeSlot ..
  cases cut with
  | manifest n =>
    rw [FirstOpenCut.plan]
    split
    next hlt =>
      change ∃ e os', readOrBootstrap i (os.withPlan [.done, .done, .fail n]) = _ ∧ _
      rw [readOrBootstrap_planned hc, Effect.bind_apply_of_error (writeAll_interrupted _ _ _ _ hlt)]
      refine ⟨_, _, rfl, ?_, rfl, rfl⟩
      rw [Os.contents_fail, Os.contents_withPlan, Os.contents_setContents_self, hc]
      rfl
    next hge =>
      change ∃ e os', readOrBootstrap i (os.withPlan [.done, .done, .done, .fail 0]) = _ ∧ _
      obtain ⟨os₁, hc₁, hnames, hnext, hrun⟩ := readOrBootstrap_written hc [.fail 0]
      refine ⟨ioErr, (os₁.withPlan []).fail, by rw [hrun]; rfl, ?_, hnames, hnext⟩
      rw [Os.contents_fail, Os.contents_withPlan, hc₁, FirstOpenCut.file,
        List.take_of_length_le (not_lt.mp hge)]
      rfl
  | synced =>
    change ∃ e os', readOrBootstrap i (os.withPlan [.done, .done, .done, .done, .fail 0]) = _ ∧ _
    obtain ⟨os₁, hc₁, hnames, hnext, hrun⟩ := readOrBootstrap_synced hc [.fail 0]
    refine ⟨ioErr, (os₁.withPlan []).fail, by rw [hrun]; rfl, ?_, hnames, hnext⟩
    rw [Os.contents_fail, Os.contents_withPlan, hc₁]
    rfl
  | header n =>
    rw [FirstOpenCut.plan]
    split
    next hlt =>
      change ∃ e os', readOrBootstrap i
        (os.withPlan [.done, .done, .done, .done, .done, .fail n]) = _ ∧ _
      obtain ⟨os₁, hc₁, hnames, hnext, hrun⟩ := readOrBootstrap_synced hc [.done, .fail n]
      rw [hrun, Effect.bind_apply_of_error (by
        rw [writeHeader_planned, Effect.bind_apply_of_error
          (writeAll_interrupted _ _ _ _ (hlen ▸ hlt))])]
      refine ⟨_, _, rfl, ?_, hnames, hnext⟩
      rw [Os.contents_fail, Os.contents_withPlan, Os.contents_setContents_self, hc₁]
      rfl
    next hge =>
      change ∃ e os', readOrBootstrap i
        (os.withPlan [.done, .done, .done, .done, .done, .done, .fail 0]) = _ ∧ _
      have hroom : 0 + FirstOpenCut.firstHeader.bytes.length ≤ Os.maxLen := by
        rw [hlen]
        decide
      obtain ⟨os₁, hc₁, hnames, hnext, hrun⟩ := readOrBootstrap_synced hc [.done, .done, .fail 0]
      set os₂ := os₁.setContents i ((os₁.contents i).writeAt 0 FirstOpenCut.firstHeader.bytes)
        with hos₂
      have hheader : writeHeader i 0 1 bodyStart bootstrapManifest.encode
          (os₁.withPlan [.done, .done, .fail 0]) = (.error ioErr, (os₂.withPlan []).fail) := by
        rw [writeHeader_planned, Effect.bind_apply_of_ok (writeAll_planned _ _ _ _ hroom)]
        rfl
      refine ⟨ioErr, (os₂.withPlan []).fail, ?_, ?_, hnames, hnext⟩
      · rw [hrun, Effect.bind_apply_of_error hheader]
      · rw [Os.contents_fail, Os.contents_withPlan, hos₂, Os.contents_setContents_self, hc₁,
          FirstOpenCut.file, tornHeader, List.take_of_length_le (hlen ▸ not_lt.mp hge)]
        rfl

/-- **What an interrupted open leaves behind**: a file with what was written until then. -/
theorem interruptedOpen_eq {path : String} (options : LsmOptions) {os : Os}
    (hname : os.names path = none) (cut : FirstOpenCut) :
    (interruptedOpen path options cut os).Quiet ∧
      (interruptedOpen path options cut os).names path = some os.next ∧
      os.next < (interruptedOpen path options cut os).next ∧
      (interruptedOpen path options cut os).contents os.next = cut.file := by
  obtain ⟨e, os', hrun, hfile, hnames, hnext⟩ :=
    readOrBootstrap_interrupted (contents_madeFile os path) cut
  have hplan : cut.plan = .done :: .done :: .done :: .done :: cut.plan.drop 4 := by
    cases cut <;> rw [FirstOpenCut.plan] <;> first | rfl | (split <;> rfl)
  have hopen := openWithOptions_interrupted options hname hrun
  rw [← hplan] at hopen
  refine ⟨rfl, ?_, ?_, ?_⟩
  · rw [interruptedOpen, hopen]
    change os'.names path = _
    rw [hnames]
    change Function.update (Function.update os.names path (some os.next)) _ none path = _
    rw [Function.update_of_ne (compactionTmpPath_ne path).symm, Function.update_self]
  · rw [interruptedOpen, hopen]
    change _ < os'.next
    rw [hnext]
    exact Nat.lt_succ_self _
  · rw [interruptedOpen, hopen]
    exact hfile

/-! ## The next open

An empty file and a file with a header are opened as everywhere else. What is new is the file in
between: it is long enough for a header, and its second slot was never written. -/

theorem decodeSlot_emptySlot (i : ℕ) : decodeSlot i emptySlot = .ok none := by
  rw [decodeSlot, if_pos (by decide +kernel)]

/-- The contents have no valid header. -/
theorem readHeader_of_slots {f : Bytes} (hlen : bodyStart ≤ f.length)
    (hslot : slotBytes f 1 = emptySlot)
    (h : decodeSlot 0 (slotBytes f 0) = .ok none ∨ ∃ e, decodeSlot 0 (slotBytes f 0) = .error e) :
    ∃ e, readHeader f = .error e := by
  have hpos : f.length ≠ 0 := by
    rw [bodyStart, headerSlotLen] at hlen
    omega
  rw [readHeader, if_neg (not_lt.mpr hlen), hslot, decodeSlot_emptySlot]
  rcases h with h | ⟨e, h⟩
  · rw [h]
    exact ⟨_, if_neg hpos⟩
  · rw [h]
    exact ⟨e, rfl⟩

/-- A file that begins with two empty slots. -/
theorem readHeader_replicate (b : Bytes) :
    ∃ e, readHeader (List.replicate bodyStart 0 ++ b) = .error e := by
  have hslots : List.replicate bodyStart (0 : UInt8) ++ b = emptySlot ++ (emptySlot ++ b) := by
    rw [← List.append_assoc]
    rfl
  refine readHeader_of_slots (by simp) ?_ (.inl ?_)
  · rw [hslots]
    exact Bytes.slice_of_eq emptySlot emptySlot b rfl rfl rfl
  · have hslot : slotBytes (List.replicate bodyStart 0 ++ b) 0 = emptySlot := by
      rw [hslots]
      exact Bytes.slice_of_eq [] emptySlot (emptySlot ++ b) rfl rfl rfl
    rw [hslot, decodeSlot_emptySlot]

theorem slotBytes_bootstrapFile {i : ℕ} (hi : i ≤ 1) : slotBytes bootstrapFile i = emptySlot := by
  interval_cases i <;> decide +kernel

/-- A part of the header that ends inside its checked fields has the wrong checksum. -/
theorem not_checksumMatches_firstHeader {n : ℕ} (hlo : 12 ≤ n) (hhi : n < 44) :
    ¬checksumMatches (mixed emptySlot FirstOpenCut.firstHeader.bytes n) := by
  have hall : ∀ k < 32,
      checksumMatches (mixed emptySlot FirstOpenCut.firstHeader.bytes (12 + k)) = false := by
    decide +kernel
  obtain ⟨k, rfl⟩ := Nat.exists_eq_add_of_le hlo
  rw [hall k (by omega)]
  exact Bool.false_ne_true

/-- A part of the header is no header. -/
theorem readHeader_tornHeader {n : ℕ} (hn : n < 44) :
    ∃ e, readHeader (tornHeader bootstrapFile FirstOpenCut.firstHeader n) = .error e := by
  have hlen : bodyStart ≤ bootstrapFile.length := by decide +kernel
  have hbytes : FirstOpenCut.firstHeader.bytes.length = headerSlotLen := length_encodeSlot ..
  have hself := @slotBytes_tornHeader_self bootstrapFile FirstOpenCut.firstHeader n hlen
    (Nat.zero_le 1) hbytes
  have hother := @slotBytes_tornHeader_other bootstrapFile FirstOpenCut.firstHeader n hlen
    (Nat.zero_le 1) hbytes
  change slotBytes _ 0 = _ at hself
  change slotBytes _ 1 = slotBytes _ 1 at hother
  rw [show FirstOpenCut.firstHeader.slot = 0 from rfl, slotBytes_bootstrapFile (Nat.zero_le 1)]
    at hself
  rw [slotBytes_bootstrapFile le_rfl] at hother
  refine readHeader_of_slots ?_ hother ?_
  · rw [length_tornHeader hlen (Nat.zero_le 1) hbytes]
    exact hlen
  · rw [hself]
    by_cases h8 : n < 8
    · exact .inl (decodeSlot_mixed_magic 0 h8)
    by_cases h12 : n < 12
    · exact .inr ⟨_, decodeSlot_mixed_version 0 (not_lt.mp h8) (Nat.le_of_lt_succ h12)⟩
    · exact .inl (decodeSlot_of_rejected 0 (not_checksumMatches_firstHeader (not_lt.mp h12) hn)
        (slotLayout_mixed (not_lt.mp h12)))

/-- From the end of its checksum on, a part of the header is the header. -/
theorem tornHeader_of_le {n : ℕ} (hn : 44 ≤ n) :
    tornHeader bootstrapFile FirstOpenCut.firstHeader n =
      tornHeader bootstrapFile FirstOpenCut.firstHeader headerSlotLen := by
  by_cases hlt : n < headerSlotLen
  · have hall : ∀ k < 20, tornHeader bootstrapFile FirstOpenCut.firstHeader (44 + k) =
        tornHeader bootstrapFile FirstOpenCut.firstHeader headerSlotLen := by decide +kernel
    obtain ⟨k, rfl⟩ := Nat.exists_eq_add_of_le hn
    rw [headerSlotLen] at hlt
    exact hall k (by omega)
  · have hbytes : FirstOpenCut.firstHeader.bytes.length = headerSlotLen := length_encodeSlot ..
    rw [tornHeader, tornHeader, List.take_of_length_le (hbytes ▸ not_lt.mp hlt),
      List.take_of_length_le hbytes.le]

section

variable [Lz4]

theorem file_image {f : Bytes} {prevSeq prevSlot offset n : ℕ} {m : Manifest}
    {tables : List Memtable} (h : HeaderReady f prevSeq prevSlot offset m tables)
    (hcomplete : mixed (slotBytes f (1 - prevSlot))
      (HeaderReady.write prevSeq prevSlot offset m).bytes n =
        (HeaderReady.write prevSeq prevSlot offset m).bytes) :
    (h.image n hcomplete).file = tornHeader f (HeaderReady.write prevSeq prevSlot offset m) n := by
  rw [Image.file]
  exact List.append_nil _

theorem file_header_of_le {n : ℕ} (hn : 44 ≤ n) :
    (FirstOpenCut.header n).file = bootstrapImage.file := by
  rw [FirstOpenCut.file, tornHeader_of_le hn, bootstrapImage, file_image]
  rfl

omit [Lz4] in
/-- The next open of a file in between fails. -/
theorem openWithOptions_of_readHeader {path : String} (options : LsmOptions) {os : Os} {i : ℕ}
    (hq : os.Quiet) (hname : os.names path = some i) {e : BknError}
    (h : readHeader (os.contents i) = .error e) :
    ∃ os', openWithOptions path options os = (.error e, os') := by
  rw [openWithOptions, open_begin hq hname]
  set os₁ : Os := { os with names := Function.update os.names (compactionTmpPath path) none }
  have hq₁ : os₁.Quiet := hq
  refine ⟨os₁, ?_⟩
  rw [Effect.bind_apply_of_error]
  rw [readOrBootstrap, Effect.bind_apply_of_ok (hq₁.read ..)]
  change (Effect.ofExcept (readHeader (os.contents i)) >>= _) os₁ = _
  rw [h, Effect.bind_apply_of_error (Effect.ofExcept_apply _ os₁)]

variable [BloomSizing]

/-- An empty database as good as any: nothing is found in it, every batch that fits a record can be
committed, and whatever is done with it goes as specified. -/
structure EmptyDatabase (s : LsmSystem) : Prop where
  finds : (beginRead s.backend).Reads ∅
  accepts : ∀ pending : Pending, (⟨pending.entries⟩ : WalRecord).Fits →
    (s.os.contents s.backend.container.file).length +
      (Wal.frame (⟨pending.entries⟩ : WalRecord).serialize).length ≤ Os.maxLen →
    ∃ s₁ due s₂, appendRecord pending s = (.ok (), s₁) ∧ applyPending pending s₁ = (.ok due, s₂) ∧
      (beginRead s₂.backend).Reads (Layers.applyBatch ∅ pending)
  goesOn : ∀ steps, Run.EachStep Session.step Session.Undamaged (Session.begun s) steps →
    Run.EachStep Session.step Session.Unrefused (Session.begun s) steps →
    ∀ r', Run.run Session.step (Session.begun s) steps = some r' → r'.Refines

/-- The path opens as an empty database. -/
def OpensEmpty (path : String) (os : Os) : Prop :=
  ∀ options, ∃ b os', openWithOptions path options os = (.ok b, os') ∧ EmptyDatabase ⟨os', b⟩

theorem AtRest.emptyDatabase {s : LsmSystem} (hq : s.os.Quiet) (h : AtRest true s ∅) :
    EmptyDatabase s where
  finds := ReadTx.reads h.live
  accepts pending hfits hroom := by
    obtain ⟨os', happend, -⟩ := Wal.append_of_quiet hq hfits hroom
    have hrun : appendRecord pending s = (.ok (), { s with os := os' }) := by
      rw [appendRecord_apply, happend]
    obtain ⟨v, hintact, hclean, -⟩ := h.intact_of_appendable h.appendable
    obtain ⟨hlogged, -, -⟩ := appendRecord_ok hintact hclean hrun
    obtain ⟨due, s₂, happly, -, hintact₂, -⟩ := applyPending_ok hlogged
    exact ⟨_, due, s₂, hrun, happly, ReadTx.reads hintact₂.memory.live⟩
  goesOn steps hok hun r' hrun := by
    have hinv : (Session.begun s).Inv :=
      ⟨hq, nofun, ∅, h, fun hpc ↦ absurd rfl hpc, fun _ ↦ Contents.represents_empty, nofun⟩
    exact (Run.invariant (fun _ _ _ h hc ↦ Session.Inv.step h hc.1 hc.2) hinv (hok.and hun)
      hrun).refines

/-- The cut leaves an empty file or one with the header: nothing was written, or all of the header
but its reserved bytes. -/
def FirstOpenCut.Survived : FirstOpenCut → Prop
  | manifest n => n = 0
  | synced => False
  | header n => 44 ≤ n

variable {path : String} {options : LsmOptions} {os : Os} {cut : FirstOpenCut}

theorem opensEmpty_of_survived (hname : os.names path = none) (h : cut.Survived) :
    OpensEmpty path (interruptedOpen path options cut os) := by
  obtain ⟨hq, hnamed, hlt, hfile⟩ := interruptedOpen_eq options hname cut
  intro options'
  cases cut with
  | manifest n =>
    obtain rfl : n = 0 := h
    obtain ⟨b, os', hopen, hopened, -⟩ :=
      @openWithOptions_empty _ _ options' _ _ hq hnamed hlt hfile
    exact ⟨b, os', hopen, AtRest.emptyDatabase hopened.quiet
      (.intact _ hopened.intact fun _ ↦ hopened.settled)⟩
  | synced => exact h.elim
  | header n =>
    obtain ⟨b, os', hopen, hopened, -⟩ := @openWithOptions_image _ _ options' _ _
      denotes_bootstrapImage _ _ hq hnamed hlt (hfile.trans (file_header_of_le h))
    exact ⟨b, os', hopen, AtRest.emptyDatabase hopened.quiet
      (.intact _ hopened.intact fun _ ↦ hopened.settled)⟩

theorem not_opensEmpty_of_readHeader {e : BknError} (hname : os.names path = none)
    (h : readHeader cut.file = .error e) :
    ¬OpensEmpty path (interruptedOpen path options cut os) := by
  obtain ⟨hq, hnamed, -, hfile⟩ := interruptedOpen_eq options hname cut
  intro hopens
  obtain ⟨b, os', hopen, -⟩ := hopens options
  obtain ⟨os'', herror⟩ := openWithOptions_of_readHeader options hq hnamed (hfile ▸ h)
  rw [herror] at hopen
  cases hopen

/-- **A crash during the first open** is survived exactly if nothing was written yet, or all of the
header but its reserved bytes. -/
theorem opensEmpty_interruptedOpen_iff (path : String) (options : LsmOptions) (os : Os)
    (hname : os.names path = none) (cut : FirstOpenCut) :
    OpensEmpty path (interruptedOpen path options cut os) ↔ cut.Survived := by
  refine ⟨fun hopens ↦ ?_, opensEmpty_of_survived hname⟩
  cases cut with
  | manifest n =>
    by_contra hn
    have hne : bootstrapManifest.encode.take n ≠ [] := by
      rw [ne_eq, List.take_eq_nil_iff, not_or]
      exact ⟨hn, by decide +kernel⟩
    obtain ⟨e, he⟩ := readHeader_replicate (bootstrapManifest.encode.take n)
    refine not_opensEmpty_of_readHeader (e := e) hname ?_ hopens
    rw [FirstOpenCut.file, Bytes.writeAt, if_neg hne]
    simpa using he
  | synced =>
    obtain ⟨e, he⟩ := readHeader_replicate bootstrapManifest.encode
    have hread : readHeader FirstOpenCut.synced.file = .error e := by
      rw [FirstOpenCut.file, bootstrapFile_eq, he]
    exact not_opensEmpty_of_readHeader hname hread hopens
  | header n =>
    by_contra hn
    obtain ⟨e, he⟩ := readHeader_tornHeader (not_le.mp hn)
    have hread : readHeader (FirstOpenCut.header n).file = .error e := he
    exact not_opensEmpty_of_readHeader hname hread hopens

end

/-! ## Two crashes -/

open Lsm.Sample

/-- The header is there but for its last bytes, which are reserved. -/
theorem opensEmpty_interruptedOpen_reserved :
    OpensEmpty "db" (interruptedOpen "db" ⟨6, 2, 16, true⟩ (.header 50) {}) :=
  (opensEmpty_interruptedOpen_iff "db" ⟨6, 2, 16, true⟩ {} rfl (.header 50)).mpr
    (by rw [FirstOpenCut.Survived]; decide)

/-- The process is gone when the manifest is durable and no header is written. -/
theorem not_opensEmpty_interruptedOpen_synced :
    ¬∀ (path : String) (options : LsmOptions) (os : Os), os.names path = none →
      ∀ cut, OpensEmpty path (interruptedOpen path options cut os) := by
  intro h
  obtain ⟨e, he⟩ := readHeader_replicate bootstrapManifest.encode
  refine not_opensEmpty_of_readHeader (e := e) rfl ?_ (h "db" ⟨6, 2, 16, true⟩ {} rfl .synced)
  rw [FirstOpenCut.file, bootstrapFile_eq, he]

end Lsm
