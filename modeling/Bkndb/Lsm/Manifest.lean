import Bkndb.Basic.Bincode

/-!
# The manifest

`manifest.rs`: which byte ranges of the container file are the live SSTables, and where the active
write-ahead log begins. The log has no length: it reaches to the end of the file.

A manifest is written anew by each flush and each merge, behind the tables it names. It has to say
where the log begins, which is right behind the manifest itself; the length of a manifest does not
depend on the numbers in it, so it is encoded once to learn its length and once more with the
number filled in.
-/

/-- Where an SSTable lies in the container file. -/
structure SstableRef where
  generation : ℕ
  offset : ℕ
  length : ℕ
  deriving DecidableEq

structure Manifest where
  nextSstableId : ℕ
  sstables : List SstableRef
  walRegionStart : ℕ
  deriving DecidableEq

/-- The fields of a reference, one after the other. -/
def SstableRef.codec : Codec SstableRef :=
  (Codec.u64.prod (Codec.u64.prod Codec.u64)).iso (fun p ↦ ⟨p.1, p.2.1, p.2.2⟩)
    (fun r ↦ (r.generation, r.offset, r.length)) fun _ ↦ rfl

namespace Manifest

def codec : Codec Manifest :=
  (Codec.u64.prod ((Codec.list SstableRef.codec).prod Codec.u64)).iso
    (fun p ↦ ⟨p.1, p.2.1, p.2.2⟩) (fun m ↦ (m.nextSstableId, m.sstables, m.walRegionStart)) fun _ ↦ rfl

def encode (m : Manifest) : Bytes := codec.encode m

def decode (b : Bytes) : Option Manifest := codec.deserialize b

theorem decode_encode {m : Manifest} (h : codec.Valid m) : decode m.encode = some m := by
  have hd := codec.deserialize_encode h []
  rwa [List.append_nil] at hd

theorem length_encode_ref (r : SstableRef) : (SstableRef.codec.encode r).length = 24 := by
  change (Codec.u64.encode _ ++ (Codec.u64.encode _ ++ Codec.u64.encode _)).length = 24
  simp

/-- The length of a manifest depends on the number of its references only: that is why it can be
encoded once to learn where it will end. -/
theorem length_encode (m : Manifest) : m.encode.length = 24 + 24 * m.sstables.length := by
  have hrefs : ∀ l : List SstableRef, (l.flatMap SstableRef.codec.encode).length = 24 * l.length := by
    intro l
    induction l with
    | nil => rfl
    | cons r l ih =>
      rw [List.flatMap_cons, List.length_append, length_encode_ref, ih, List.length_cons]
      omega
  change (Codec.u64.encode _ ++ ((Codec.u64.encode _ ++ m.sstables.flatMap SstableRef.codec.encode) ++
    Codec.u64.encode _)).length = _
  simp only [List.length_append, Codec.length_encode_u64, hrefs]
  omega

end Manifest
