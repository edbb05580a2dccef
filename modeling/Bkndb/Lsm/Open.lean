import Bkndb.Lsm.Invariant
import Bkndb.Lsm.Quiet

/-!
# Opening a container

Opening a file that is a well-formed container, whatever stands behind its log, gives an engine that
stands for the same map, with the log cut where its frames end. An empty file is made a container
first.

## Main results

* `openWithOptions_image`: opening a container, whatever is behind its log, gives a settled engine
  for the same map.
* `openWithOptions_empty` and `openWithOptions_new`: an empty file, or none, becomes an empty
  database.

No call fails here. What an open leaves behind when a call fails is not described; the file is only
cut behind its log and otherwise not changed.
-/

open Container

variable [Lz4]

/-! ## Recovery -/

/-- Recovery reads the records of the log and cuts the file behind them. -/
theorem Image.recover (v : Image) {os : Os} {i : ℕ} (hq : os.Quiet) (hc : os.contents i = v.file) :
    ∃ os', Wal.recover i v.manifest.walRegionStart os = (.ok v.records, os') ∧
      os.Touches i os' ∧ os'.contents i = v.cut.file ∧
      ((os.inodes i).durable = os.contents i → (os'.inodes i).durable = os'.contents i) := by
  have hlen : v.file.length = v.manifest.walRegionStart + v.body.length + v.tail.length := by
    rw [Image.file, v.start]
    simp only [List.length_append]
    omega
  rw [Wal.recover, Effect.bind_apply_of_ok (Effect.get_apply os), hc, v.replayFrom_file]
  dsimp only
  rw [Effect.bind_apply_of_ok (hq.fileLen ..), hc]
  split
  next hlt =>
    have hsync := (hq.setContents i ((os.contents i).setLen
      (v.manifest.walRegionStart + v.body.length))).sync ioErr i
    rw [Effect.bind_apply_of_ok (hq.setLen ..), Effect.bind_apply_of_ok hsync]
    refine ⟨_, rfl, (Os.touches_setContents ..).trans (Os.touches_setInode ..), ?_, fun _ ↦ ?_⟩
    · rw [Os.contents_setInode_self, Os.contents_setContents_self, hc, Bytes.setLen,
        Nat.sub_eq_zero_of_le hlt.le, List.replicate_zero, List.append_nil, v.file_cut, Image.file,
        ← List.append_assoc, List.take_left' (by rw [List.length_append, v.start])]
    · simp [Os.setInode, Os.contents]
  next hge =>
    have hnil : v.tail = [] := by
      rw [← List.length_eq_zero_iff]
      omega
    refine ⟨os, rfl, .rfl', ?_, fun hd ↦ hd.trans hc.symm⟩
    rw [hc, v.file_cut, Image.file, hnil, List.append_nil]

/-! ## Tables -/

theorem openSstables_eq {base : Bytes} {refs : List SstableRef} {tables : List Memtable}
    (h : List.Forall₂ (TableAt base) refs tables) {os : Os} {i : ℕ} (hq : os.Quiet) {rest : Bytes}
    (hc : os.contents i = base ++ rest) (hlt : (os.contents i).length < 2 ^ 64) :
    ∃ hs, Lsm.openSstables i refs os = (.ok hs, os) ∧ hs.map Lsm.sstableRef = refs ∧
      List.Forall₂ (fun h t ↦ SstableHandle.Holds h (OrdMap.entries t)) hs tables := by
  induction h with
  | nil => exact ⟨[], rfl, rfl, .nil⟩
  | @cons r t refs tables hr _ ih =>
    obtain ⟨hs, hopen, hrefs, hholds⟩ := ih
    obtain ⟨handle, hhandle, hh, href⟩ := hr.opens (os.contents i) hlt
      (by rw [hc, List.length_append]; exact hr.inside.trans (Nat.le_add_right ..))
      (by rw [hc]; exact Bytes.slice_append_left hr.inside _)
    refine ⟨handle :: hs, ?_, by rw [List.map_cons, href, hrefs], .cons hh hholds⟩
    rw [Lsm.openSstables, Effect.bind_apply_of_ok (hq.read ..), hhandle,
      Effect.bind_apply_of_ok (Effect.ofExcept_apply _ os), Effect.bind_apply_of_ok hopen]
    rfl

omit [Lz4] in
theorem mergeSort_handles {hs : List SstableHandle} {refs : List SstableRef}
    (h : hs.map Lsm.sstableRef = refs)
    (hasc : refs.Pairwise fun r r' ↦ r.generation < r'.generation) :
    (hs.mergeSort fun a b ↦ decide (a.generation ≤ b.generation)) = hs := by
  subst h
  refine List.mergeSort_of_pairwise ((List.pairwise_map.mp hasc).imp fun {a b} hab ↦ ?_)
  exact decide_eq_true (le_of_lt hab)

/-! ## The header and the manifest -/

/-- The header and the manifest of an image are read. -/
theorem readOrBootstrap_image {v : Image} {os : Os} {i : ℕ} (hq : os.Quiet)
    (hc : os.contents i = v.file) : Lsm.readOrBootstrap i os =
      (.ok (v.manifest, v.header.manifestLen, v.header.seq, v.header.slot), os) := by
  rw [Lsm.readOrBootstrap, Effect.bind_apply_of_ok (hq.read ..), hc, v.readHeader_file,
    Effect.bind_apply_of_ok (Effect.ofExcept_apply _ os)]
  dsimp only
  rw [v.readManifest_file, Effect.bind_apply_of_ok (Effect.ofExcept_apply _ os),
    Manifest.decode_encode v.valid]
  rfl

namespace Lsm

/-- What opening leaves: an engine over a container that stands for a map. -/
structure OpenedAt (path : String) (options : LsmOptions) (v : Image) (D : OrdMap Bytes Bytes)
    (s : LsmSystem) : Prop where
  path_eq : s.backend.path = path
  options_eq : s.backend.options = options
  quiet : s.os.Quiet
  intact : Intact s v D
  settled : Settled s v

/-- The file of the engine is durable. -/
def Durable (s : LsmSystem) : Prop :=
  (s.os.inodes s.backend.container.file).durable = s.os.contents s.backend.container.file

theorem open_rest {path : String} {options : LsmOptions} {v : Image} {D : OrdMap Bytes Bytes}
    (hD : v.Denotes D) {os : Os} {i : ℕ} (hq : os.Quiet) (hc : os.contents i = v.file)
    (hplaced : Placed os path i) (manifestLen : ℕ) :
    ∃ b os', (do
        let records ← Wal.recover i v.manifest.walRegionStart
        let sstables ← openSstables i v.manifest.sstables
        return {
          path, options
          state := {
            activeMemtable := replayed records
            immutableMemtables := []
            sstables := sstables.mergeSort fun a b ↦ a.generation ≤ b.generation
            nextSstableId := v.manifest.nextSstableId
            walRegionStart := v.manifest.walRegionStart
            manifestLen }
          container := { file := i, headerSeq := v.header.seq, headerSlot := v.header.slot } } :
        Effect Os BknError LsmStorageBackend) os = (.ok b, os') ∧
      OpenedAt path options v.cut D ⟨os', b⟩ ∧ os.Touches i os' ∧
      ((os.inodes i).durable = os.contents i → Durable ⟨os', b⟩) := by
  obtain ⟨os', hrecover, htouches, hcontents, hdurable⟩ := v.recover hq hc
  have hq' := htouches.quiet hq
  have hlt : (os'.contents i).length < 2 ^ 64 := by
    rw [hcontents, v.file_cut]
    exact lt_of_le_of_lt v.length_le (by decide)
  obtain ⟨hs, hopen, hrefs, hholds⟩ := openSstables_eq v.refs hq' (hcontents.trans v.file_cut) hlt
  rw [Effect.bind_apply_of_ok hrecover, Effect.bind_apply_of_ok hopen,
    mergeSort_handles hrefs v.ascending]
  refine ⟨_, os', rfl, ⟨rfl, rfl, hq', ⟨⟨hcontents, hplaced.touches htouches⟩, ?_⟩, rfl, rfl⟩,
    htouches, hdurable⟩
  exact InMemory.of_books hD rfl rfl ⟨rfl, rfl, hholds, hrefs, rfl, le_rfl⟩

omit [Lz4] in
theorem open_begin {path : String} {os : Os} {i : ℕ} (hq : os.Quiet)
    (hname : os.names path = some i) {α : Type} (rest : ℕ → Effect Os BknError α) :
    (do
      Os.call ioErr
      let i ← Os.openFile ioErr path
      Os.call (.databaseLocked path)
      (Os.removeFile ioErr (compactionTmpPath path)).ignore
      rest i) os =
    rest i { os with names := Function.update os.names (compactionTmpPath path) none } := by
  have hignore : (Os.removeFile ioErr (compactionTmpPath path)).ignore os =
      ((.ok () : Except BknError Unit),
        { os with names := Function.update os.names (compactionTmpPath path) none }) := by
    rw [Effect.ignore, hq.removeFile]
  rw [Effect.bind_apply_of_ok (hq.call _), Effect.bind_apply_of_ok (hq.openFile_of_some hname _),
    Effect.bind_apply_of_ok (hq.call _), Effect.bind_apply_of_ok hignore]

omit [Lz4] in
theorem placed_removeTmp {os : Os} {path : String} {i : ℕ} (hname : os.names path = some i)
    (hlt : i < os.next) :
    Placed { os with names := Function.update os.names (compactionTmpPath path) none } path i where
  named := by
    change Function.update os.names _ none path = _
    rw [Function.update_of_ne (compactionTmpPath_ne path).symm, hname]
  lt_next := hlt
  apart j hj := by
    change Function.update os.names _ none _ = _ at hj
    rw [Function.update_self] at hj
    cases hj

/-- **Opening a container.** The engine stands for the map that the file stands for. -/
theorem openWithOptions_image {path : String} {options : LsmOptions} {v : Image}
    {D : OrdMap Bytes Bytes} (hD : v.Denotes D) {os : Os} {i : ℕ} (hq : os.Quiet)
    (hname : os.names path = some i) (hlt : i < os.next) (hc : os.contents i = v.file) :
    ∃ b os', openWithOptions path options os = (.ok b, os') ∧
      OpenedAt path options v.cut D ⟨os', b⟩ ∧
      ((os.inodes i).durable = os.contents i → Durable ⟨os', b⟩) := by
  rw [openWithOptions, open_begin hq hname]
  set os₁ : Os := { os with names := Function.update os.names (compactionTmpPath path) none }
  rw [Effect.bind_apply_of_ok (@readOrBootstrap_image _ v os₁ i hq hc)]
  obtain ⟨b, os', hrest, hopened, -, hdurable⟩ :=
    @open_rest _ path options v D hD os₁ i hq hc (placed_removeTmp hname hlt) v.header.manifestLen
  exact ⟨b, os', hrest, hopened, hdurable⟩

/-! ## An empty file

The first header goes into the first slot, with the manifest of no tables behind the header area.
The other slot is never written before the first flush. -/

/-- The manifest of an empty database. -/
def bootstrapManifest : Manifest := placeManifest 1 [] bodyStart

/-- The file once the manifest is written. -/
def bootstrapFile : Bytes := Bytes.writeAt [] bodyStart bootstrapManifest.encode

omit [Lz4] in
theorem bootstrapFile_eq :
    bootstrapFile = List.replicate bodyStart 0 ++ bootstrapManifest.encode := by decide +kernel

/-- With the manifest written, the file lacks nothing but the header. -/
theorem headerReady_bootstrap :
    HeaderReady bootstrapFile 0 1 bodyStart bootstrapManifest [] where
  slot_le := le_rfl
  seq_lt := by norm_num
  superseded := .inl (if_pos (by decide +kernel))
  body_le := le_rfl
  manifest := ⟨_, bootstrapFile_eq, List.length_replicate⟩
  start := by decide +kernel
  length_le := by decide +kernel
  next_lt := by decide
  refs := .nil
  ascending := .nil
  ids := by simp [bootstrapManifest, placeManifest]

/-- The container of an empty database. -/
def bootstrapImage : Image :=
  headerReady_bootstrap.image headerSlotLen headerReady_bootstrap.mixed_eq

theorem denotes_bootstrapImage : bootstrapImage.Denotes ∅ := fun _ ↦ rfl

/-- An empty file is made a container. -/
theorem readOrBootstrap_empty {os : Os} {i : ℕ} (hq : os.Quiet) (hc : os.contents i = []) :
    ∃ os', readOrBootstrap i os = (.ok (bootstrapManifest, bootstrapManifest.encode.length, 1, 0),
        os') ∧ os.Touches i os' ∧ os'.contents i = bootstrapImage.file ∧
      (os'.inodes i).durable = os'.contents i := by
  have hroom : bodyStart + bootstrapManifest.encode.length ≤ Os.maxLen := by decide +kernel
  have hblob : writeBlobAt i bodyStart bootstrapManifest.encode os =
      (.ok (), os.setContents i bootstrapFile) := by
    rw [writeBlobAt, Effect.bind_apply_of_ok (hq.call _), Os.writeAll, hq.writeWith hroom, hc]
    rfl
  have hsync := (hq.setContents i bootstrapFile).sync ioErr i
  set os₂ := (os.setContents i bootstrapFile).setInode i
    ⟨(os.setContents i bootstrapFile).contents i, (os.setContents i bootstrapFile).contents i⟩
  have hc₂ : os₂.contents i = bootstrapFile := by
    rw [Os.contents_setInode_self, Os.contents_setContents_self]
  obtain ⟨os₃, hheader, -⟩ := @Container.writeHeader_of_quiet i 0 1 bodyStart bootstrapManifest os₂
    hq (by norm_num)
  have htouches := Container.steps_writeHeader i 0 1 bodyStart bootstrapManifest.encode os₂
  rw [hheader] at htouches
  obtain ⟨-, -, hcontents, hdurable⟩ | ⟨_, _, ⟨⟩, -⟩ | ⟨_, ⟨⟩, -⟩ :=
    Container.writeHeader_cases hheader
  refine ⟨os₃, ?_, ?_, ?_, hdurable⟩
  · have hread : readHeader [] = .ok none := rfl
    rw [readOrBootstrap, Effect.bind_apply_of_ok (hq.read ..), hc, hread,
      Effect.bind_apply_of_ok (Effect.ofExcept_apply _ os)]
    dsimp only
    change (writeBlobAt i bodyStart bootstrapManifest.encode >>= _) os = _
    rw [Effect.bind_apply_of_ok hblob, Effect.bind_apply_of_ok hsync]
    exact Effect.bind_apply_of_ok hheader
  · exact ((Os.touches_setContents ..).trans (Os.touches_setInode ..)).trans htouches
  · rw [hcontents, hc₂, bootstrapImage, Image.file]
    exact (List.append_nil _).symm

/-- **Opening an empty file.** The engine stands for the empty map. -/
theorem openWithOptions_empty {path : String} {options : LsmOptions} {os : Os} {i : ℕ}
    (hq : os.Quiet) (hname : os.names path = some i) (hlt : i < os.next)
    (hc : os.contents i = []) :
    ∃ b os', openWithOptions path options os = (.ok b, os') ∧
      OpenedAt path options bootstrapImage ∅ ⟨os', b⟩ ∧ Durable ⟨os', b⟩ := by
  rw [openWithOptions, open_begin hq hname]
  set os₁ : Os := { os with names := Function.update os.names (compactionTmpPath path) none }
  obtain ⟨os₂, hboot, htouches, hc₂, hdurable₂⟩ := @readOrBootstrap_empty _ os₁ i hq hc
  rw [Effect.bind_apply_of_ok hboot]
  obtain ⟨b, os', hrest, hopened, -, hdurable⟩ :=
    @open_rest _ path options _ _ denotes_bootstrapImage os₂ i (htouches.quiet hq) hc₂
      ((placed_removeTmp hname hlt).touches htouches) bootstrapManifest.encode.length
  exact ⟨b, os', hrest, hopened, hdurable hdurable₂⟩

/-- **Opening a path without a file.** A file is made there. -/
theorem openWithOptions_new {path : String} {options : LsmOptions} {os : Os} (hq : os.Quiet)
    (hname : os.names path = none) :
    ∃ b os', openWithOptions path options os = (.ok b, os') ∧
      OpenedAt path options bootstrapImage ∅ ⟨os', b⟩ ∧ Durable ⟨os', b⟩ := by
  set os₁ : Os := { os.setInode os.next {} with
    next := os.next + 1, names := Function.update os.names path (some os.next) } with hos₁
  have hname₁ : os₁.names path = some os.next := Function.update_self ..
  have heq : openWithOptions path options os = openWithOptions path options os₁ := by
    rw [openWithOptions, Effect.bind_apply_of_ok (hq.call _),
      Effect.bind_apply_of_ok (hq.openFile_of_none hname _)]
    have hcall := @Os.Quiet.call BknError os₁ hq ioErr
    have hopen := @Os.Quiet.openFile_of_some BknError os₁ hq path os.next hname₁ ioErr
    exact ((Effect.bind_apply_of_ok hcall).trans (Effect.bind_apply_of_ok hopen)).symm
  rw [heq]
  refine @openWithOptions_empty _ path options os₁ _ hq hname₁ (Nat.lt_succ_self _) ?_
  rw [hos₁, Os.contents]
  change (Function.update os.inodes os.next {} os.next).contents = []
  rw [Function.update_self]

end Lsm
