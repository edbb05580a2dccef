import Bkndb.Lsm.Invariant
import Bkndb.Lsm.Writer

/-!
# Fresh containers

A compaction and a backup write a complete container into a new file. Whatever happens, no other file
is touched; and when the write succeeds the new file is a container that stands for exactly the
entries that it was given, with one SSTable and an empty log.

The table and the manifest are durable before the header is written, and the file is made durable
again after it. A fresh container is either complete, or it is removed; if its removal fails as
well, it has a temporary name, and the next write under that name empties it.
-/

open Container

namespace Os

theorem beside_onError {α ε : Type} {name : String} {x : Effect Os ε α} {cleanup : Effect Os ε Unit}
    {os : Os} (hx : Beside name os (x os).2) (hc : ∀ os', Beside name os' (cleanup os').2) :
    Beside name os (Effect.onError x cleanup os).2 := by
  rw [Effect.onError]
  rcases h : x os with ⟨e | a, os'⟩
  · rw [h] at hx
    exact hx.trans (hc os')
  · rw [h] at hx
    exact hx

end Os

namespace Lsm

variable [Lz4] [BloomSizing]

/-- However the write ends, only the new file has changed. -/
theorem beside_writeFreshContainer (path : String) (generation : ℕ)
    (entries : List (Except BknError (Bytes × Bytes))) (n : ℕ) (opts : Sst.WriteOptions) (os : Os) :
    os.Beside path (writeFreshContainer path generation entries n opts os).2 := by
  rw [writeFreshContainer]
  refine Os.beside_onError ?_ fun os' ↦ Os.beside_removeFile ..
  rcases Os.createFile_cases ioErr path os with ⟨i, os₁, hcreate, hbeside, hname, -⟩ |
    ⟨os₁, hcreate, hbeside, -⟩
  · rw [Effect.bind_apply_of_ok hcreate]
    refine hbeside.trans (.of_touches hname ?_)
    exact Os.steps_bind (Os.steps_setLen _ i _) (fun _ ↦
      Os.steps_bind (Sst.steps_write i _ _ _ _) fun _ ↦
        Os.steps_bind (Os.steps_ofExcept i _) fun _ ↦
          Os.steps_bind (steps_writeBlobAt i _ _) fun _ ↦ Os.steps_bind (Os.steps_sync _ i) fun _ ↦
            Os.steps_bind (steps_writeHeader i _ _ _ _) fun _ ↦
              Os.steps_bind (Os.steps_sync _ i) fun _ ↦ Os.steps_pure i _) os₁
  · rw [Effect.bind_apply_of_error hcreate]
    exact hbeside

/-- The new file is a container that stands for the entries. -/
structure FreshImage (os : Os) (fresh : FreshContainer) (v : Image) (E : OrdMap Bytes Bytes) :
    Prop where
  contents : os.contents fresh.file = v.file
  durable : (os.inodes fresh.file).durable = os.contents fresh.file
  seq : v.header.seq = 1
  slot : v.header.slot = 0
  tables : v.tables = [liveTable E]
  records : v.records = []
  clean : v.Clean
  manifest : v.manifest = fresh.manifest
  refs : fresh.manifest.sstables = [sstableRef fresh.handle]
  holds : fresh.handle.Holds (liveTable E).entries

omit [BloomSizing] in
theorem FreshImage.denotes {os : Os} {fresh : FreshContainer} {v : Image} {E : OrdMap Bytes Bytes}
    (h : FreshImage os fresh v E) : v.Denotes E := by
  rw [Image.Denotes, Image.layers, h.tables, h.records]
  exact Layers.denotes_nil_cons.mpr (Layers.denotes_map E fun _ ↦ rfl)

omit [BloomSizing] in
/-- The table and the manifest behind two empty slots lack nothing but the header. -/
theorem headerReady_fresh {f : Bytes} {m : Manifest} {h : SstableHandle} {t : Memtable}
    {generation : ℕ}
    (hm : m = placeManifest (generation + 1) [sstableRef h] (h.baseOffset + h.blobLen))
    (htable : TableAt f (sstableRef h) t) (hbase : h.baseOffset = bodyStart)
    (hf : ∃ table, f = List.replicate bodyStart 0 ++ table ++ m.encode ∧ table.length = h.blobLen)
    (hgen : h.generation = generation) (hnext : generation + 1 < 2 ^ 64) (hle : f.length ≤ Os.maxLen) :
    HeaderReady f 0 1 (h.baseOffset + h.blobLen) m [t] := by
  obtain ⟨table, hf, hlen⟩ := hf
  have hslot : slotBytes f 1 = List.replicate headerSlotLen 0 := by
    have hslots : List.replicate bodyStart (0 : UInt8) =
        List.replicate headerSlotLen 0 ++ List.replicate headerSlotLen 0 := rfl
    refine Bytes.slice_of_eq (List.replicate headerSlotLen 0) _ (table ++ m.encode) ?_
      List.length_replicate List.length_replicate
    rw [hf, hslots]
    simp only [List.append_assoc]
  refine ⟨le_rfl, by norm_num, ?_, by omega, ?_, ?_, hle, ?_, ?_, ?_, ?_⟩
  · rw [hslot]
    exact .inl (if_pos (by decide +kernel))
  · refine ⟨_, hf, ?_⟩
    rw [List.length_append, List.length_replicate, hlen, hbase]
  · rw [hm, walRegionStart_placeManifest, hf, ← hm, List.length_append, List.length_append,
      List.length_replicate, hlen, hbase]
  · rw [hm]
    exact hnext
  · rw [hm]
    exact .cons htable .nil
  · rw [hm]
    exact List.pairwise_singleton ..
  · intro r hr
    rw [hm] at hr ⊢
    obtain rfl := List.mem_singleton.mp hr
    exact hgen ▸ Nat.lt_succ_self _

/-- **A fresh container that is written** stands for the entries that it was given. -/
theorem writeFreshContainer_image {path : String} {generation n : ℕ} {E : OrdMap Bytes Bytes}
    {opts : Sst.WriteOptions} {os os' : Os} {fresh : FreshContainer}
    (h : writeFreshContainer path generation (E.entries.map .ok) n opts os = (.ok fresh, os')) :
    ∃ v, FreshImage os' fresh v E ∧ fresh.manifest.nextSstableId = generation + 1 ∧
      fresh.manifestLen = fresh.manifest.encode.length ∧ os'.names path = some fresh.file ∧
      (os.names path = some fresh.file ∨
        os.names path = none ∧ fresh.file = os.next ∧ fresh.file < os'.next) := by
  rw [writeFreshContainer, Effect.onError_eq_ok, Effect.bind_eq_ok] at h
  obtain ⟨i, os₁, hcreate, h⟩ := h
  obtain ⟨i', os₁', hcreate', -, hname₁, hc₁, hknown⟩ | ⟨_, hcreate', -⟩ :=
    Os.createFile_cases ioErr path os
  case inr => rw [hcreate'] at hcreate; cases hcreate
  rw [hcreate'] at hcreate
  cases hcreate
  -- the header area
  obtain ⟨_, os₂, hlen, h⟩ := Effect.bind_eq_ok.mp h
  have ht₂ := Os.steps_setLen ioErr i bodyStart os₁
  rw [hlen] at ht₂
  have hc₂ : os₂.contents i = List.replicate bodyStart 0 := by
    rw [Os.setLen_eq_ok hlen, Os.contents_setContents_self, hc₁]
    rfl
  -- the table
  obtain ⟨handle, os₃, hwrite, h⟩ := Effect.bind_eq_ok.mp h
  rw [map_liveTable] at hwrite
  have ht₃ := Sst.steps_write i generation ((liveTable E).entries.map .ok) n opts os₂
  rw [hwrite] at ht₃
  obtain ⟨hc₃, -, hbase, hend, hgen, hholds, htable⟩ :=
    Sst.write_table hwrite (by rw [hc₂, List.length_replicate])
  rw [hc₂, List.length_replicate] at hbase
  rw [hc₂] at hc₃
  have hblob : (Sst.image opts ((liveTable E).entries.map .ok) n).length = handle.blobLen := by
    rw [hc₃, List.length_append, List.length_replicate, hbase] at hend
    omega
  -- the manifest
  obtain ⟨next, os₄, hcount, h⟩ := Effect.bind_eq_ok.mp h
  obtain ⟨hadd, rfl⟩ := Effect.ofExcept_eq_ok.mp hcount
  have hnext : next = generation + 1 ∧ generation + 1 < 2 ^ 64 := by
    rw [checkedAdd] at hadd
    split at hadd
    next hlt => exact ⟨(Except.ok.inj hadd).symm, hlt⟩
    next => cases hadd
  obtain ⟨rfl, hlt⟩ := hnext
  set m := placeManifest (generation + 1) [sstableRef handle] (handle.baseOffset + handle.blobLen)
    with hm
  obtain ⟨_, os₅, hblobAt, h⟩ := Effect.bind_eq_ok.mp h
  have ht₅ := steps_writeBlobAt i (handle.baseOffset + handle.blobLen) m.encode os₄
  rw [hblobAt] at ht₅
  obtain ⟨-, hc₅, hle⟩ | ⟨_, _, ⟨⟩, -⟩ := writeBlobAt_cases hblobAt hend
  obtain ⟨_, os₆, hsync, h⟩ := Effect.bind_eq_ok.mp h
  have ht₆ := Os.steps_sync ioErr i os₅
  have hc₆ := Os.contents_sync ioErr i i os₅
  rw [hsync] at ht₆ hc₆
  -- the header
  obtain ⟨header, os₇, hheader, h⟩ := Effect.bind_eq_ok.mp h
  have ht₇ := steps_writeHeader i 0 1 (handle.baseOffset + handle.blobLen) m.encode os₆
  rw [hheader] at ht₇
  obtain ⟨-, -, hc₇, -⟩ | ⟨_, _, ⟨⟩, -⟩ | ⟨_, ⟨⟩, -⟩ := writeHeader_cases hheader
  obtain ⟨_, os₈, hsync', h⟩ := Effect.bind_eq_ok.mp h
  have ht₈ := Os.steps_sync ioErr i os₇
  have hc₈ := Os.contents_sync ioErr i i os₇
  rw [hsync'] at ht₈ hc₈
  have hdurable : (os₈.inodes i).durable = os₈.contents i := by
    rw [Os.sync_eq_ok hsync']
    simp [Os.setInode, Os.contents]
  cases h
  have hready : HeaderReady (os₅.contents i) 0 1 (handle.baseOffset + handle.blobLen) m
      [liveTable E] := by
    refine headerReady_fresh hm ?_ hbase ⟨_, by rw [hc₅, hc₃], hblob⟩ hgen hlt hle
    have hinside := htable.inside
    exact htable.congr (by rw [hc₅, List.length_append]; exact Nat.le_add_right ..)
      (by rw [hc₅]; exact Bytes.slice_append_left hinside _)
  have ht := ((((ht₂.trans ht₃).trans ht₅).trans ht₆).trans ht₇).trans ht₈
  refine ⟨hready.image headerSlotLen hready.mixed_eq, ?_, rfl, rfl, ?_, ?_⟩
  · refine ⟨?_, hdurable, rfl, rfl, rfl, rfl, rfl, rfl, rfl, hholds⟩
    change os'.contents i = _ ++ ([] ++ [])
    rw [List.append_nil, List.append_nil, hc₈, hc₇]
    rw [hc₆]
    rfl
  · rw [ht.names]
    exact hname₁
  · refine hknown.imp_right fun hnew ↦ ?_
    obtain ⟨hnone, hi, hlt'⟩ := hnew
    refine ⟨hnone, hi, ?_⟩
    rw [ht.next]
    exact hlt'

end Lsm
