import Bkndb.Basic.Bincode
import Bkndb.Core.Error

/-!
# Bloom filters

`bloom.rs`: a bit set per SSTable that is asked before the table is searched. Its size is computed in
floating point; here that computation is a parameter, and everything below holds for any size it may
come to. The hash is SipHash-1-3, written out in the source because filters are persisted.

## What is promised

A filter answers "no" only for keys that were not inserted. Nothing is proved about how often it
answers "yes" for the others, and nothing depends on it. The proof needs that the bits of a key are
the same when it is inserted and when it is asked for, and that setting a bit unsets none; it holds
of any hash.

The hash is nevertheless written out: a filter read from a file was made by an earlier run of the
program.
-/

/-! ## SipHash-1-3

Keys are fed as parts, a length and then the bytes, as the hasher of the standard library feeds a
slice. -/

namespace Sip

structure State where
  v0 : UInt64
  v1 : UInt64
  v2 : UInt64
  v3 : UInt64

def rotateLeft (x : UInt64) (n : UInt64) : UInt64 := (x <<< n) ||| (x >>> (64 - n))

def round (v : State) : State :=
  let v0 := v.v0 + v.v1
  let v1 := rotateLeft v.v1 13 ^^^ v0
  let v0 := rotateLeft v0 32
  let v2 := v.v2 + v.v3
  let v3 := rotateLeft v.v3 16 ^^^ v2
  let v0 := v0 + v3
  let v3 := rotateLeft v3 21 ^^^ v0
  let v2 := v2 + v1
  let v1 := rotateLeft v1 17 ^^^ v2
  let v2 := rotateLeft v2 32
  ⟨v0, v1, v2, v3⟩

def compress (v : State) (m : UInt64) : State :=
  let v := round { v with v3 := v.v3 ^^^ m }
  { v with v0 := v.v0 ^^^ m }

/-- Eight bytes or fewer as a number, least significant first. -/
def word (b : Bytes) : UInt64 := UInt64.ofNat (Bytes.ofBe b.reverse)

/-- Feed one byte: full words are compressed, the rest waits. -/
def feed (s : State × Bytes) (b : UInt8) : State × Bytes :=
  let buf := s.2 ++ [b]
  if buf.length = 8 then (compress s.1 (word buf), []) else (s.1, buf)

def start : State :=
  ⟨0x736f6d6570736575, 0x646f72616e646f6d, 0x6c7967656e657261, 0x7465646279746573⟩

/-- SipHash-1-3 with zero keys over the concatenation of the parts. -/
def sip13 (parts : List Bytes) : UInt64 :=
  let total := (parts.map List.length).sum
  let (v, buf) := parts.flatten.foldl feed (start, [])
  let last := (UInt64.ofNat (total % 256) <<< 56) ||| word buf
  let v := compress v last
  let v := round (round (round { v with v2 := v.v2 ^^^ 0xff }))
  v.v0 ^^^ v.v1 ^^^ v.v2 ^^^ v.v3

example : sip13 [] = 15130871412783076140 := by decide +kernel

end Sip

/-! ## The filter -/

/-- The size of a filter for a number of items at a false positive rate of one in a hundred, as the
floating-point formulas give it before it is brought into bounds. -/
class BloomSizing where
  /-- `ceil(-n * ln(p) / ln(2)^2) as u32`. -/
  bits (n : ℕ) : UInt32
  /-- `round((m / n) * ln(2)) as u32`. -/
  hashes (n m : ℕ) : UInt32

structure BloomFilter where
  /-- Number of bits. -/
  m : ℕ
  /-- Number of hash functions. -/
  k : ℕ
  bits : Bytes
  deriving DecidableEq

namespace BloomFilter

def new [BloomSizing] (expectedItems : ℕ) : BloomFilter :=
  let n := max expectedItems 1
  let m := max (BloomSizing.bits n).toNat 64
  let k := max 1 (min 32 (BloomSizing.hashes n m).toNat)
  { m, k, bits := List.replicate ((m + 7) / 8) 0 }

/-- The two hashes of a key, alone and salted. A slice hashes its length first. -/
def baseHashes (key : Bytes) : UInt64 × UInt64 :=
  let lenPrefix := Codec.u64.encode key.length
  (Sip.sip13 [lenPrefix, key], Sip.sip13 [lenPrefix, key, Codec.u64.encode 0x9E3779B97F4A7C15])

/-- The bits of a key. -/
def probeBits (f : BloomFilter) (key : Bytes) : List ℕ :=
  let (h1, h2) := baseHashes key
  (List.range f.k).map fun i ↦ (h1 + UInt64.ofNat i * h2).toNat % f.m

/-- The mask of a bit in its byte. -/
def mask (bit : ℕ) : UInt8 := 1 <<< UInt8.ofNat (bit % 8)

def setBit (bits : Bytes) (bit : ℕ) : Bytes := bits.modify (bit / 8) (· ||| mask bit)

def insert (f : BloomFilter) (key : Bytes) : BloomFilter :=
  { f with bits := (f.probeBits key).foldl setBit f.bits }

/-- Look a bit up. A filter read from a file may be shorter than its number of bits says. -/
def testBit (bits : Bytes) (bit : ℕ) : Except BknError Bool :=
  match bits[bit / 8]? with
  | some b => .ok (b &&& mask bit ≠ 0)
  | none => .error (.panic "index out of bounds")

/-- Whether all of the bits are set; the first one that is not ends the search. -/
def testAll (bits : Bytes) : List ℕ → Except BknError Bool
  | [] => .ok true
  | bit :: rest => do if ← testBit bits bit then testAll bits rest else return false

def mightContain (f : BloomFilter) (key : Bytes) : Except BknError Bool :=
  if f.m = 0 ∧ f.k ≠ 0 then
    .error (.panic "attempt to calculate the remainder with a divisor of zero")
  else testAll f.bits (f.probeBits key)

def codec : Codec BloomFilter :=
  (Codec.u32.prod (Codec.u32.prod Codec.bytes)).iso (fun p ↦ ⟨p.1, p.2.1, p.2.2⟩)
    (fun f ↦ (f.m, f.k, f.bits)) fun _ ↦ rfl

/-! ## No false negatives -/

/-- There is a byte for each bit. -/
structure WellFormed (f : BloomFilter) : Prop where
  pos : 0 < f.m
  m_lt : f.m < 2 ^ 32
  k_lt : f.k < 2 ^ 32
  bits : f.bits.length = (f.m + 7) / 8

theorem WellFormed.valid {f : BloomFilter} (h : f.WellFormed) : codec.Valid f := by
  refine ⟨?_, ?_, Codec.valid_bytes ?_⟩
  · exact lt_of_lt_of_eq h.m_lt (by norm_num)
  · exact lt_of_lt_of_eq h.k_lt (by norm_num)
  · rw [h.bits]
    have := h.m_lt
    norm_num
    omega

theorem wellFormed_new [BloomSizing] (n : ℕ) : (new n).WellFormed where
  pos := lt_of_lt_of_le (by decide) (le_max_right _ 64)
  m_lt := max_lt (UInt32.toNat_lt _) (by decide)
  k_lt := max_lt (by decide) (lt_of_le_of_lt (min_le_left _ _) (by decide))
  bits := List.length_replicate

theorem mask_ne_zero (bit : ℕ) : mask bit ≠ 0 := by
  have h : ∀ i < 8, (1 : UInt8) <<< UInt8.ofNat i ≠ 0 := by decide
  exact h _ (Nat.mod_lt _ (by decide))

theorem length_setBit (bits : Bytes) (bit : ℕ) : (setBit bits bit).length = bits.length :=
  List.length_modify ..

theorem testBit_setBit_self {bits : Bytes} {bit : ℕ} (h : bit / 8 < bits.length) :
    testBit (setBit bits bit) bit = .ok true := by
  have hget : (setBit bits bit)[bit / 8]? = some (bits[bit / 8] ||| mask bit) := by
    simp [setBit, List.getElem?_eq_getElem h]
  have hself : (bits[bit / 8] ||| mask bit) &&& mask bit = mask bit := by
    rw [← UInt8.toNat_inj, UInt8.toNat_and, UInt8.toNat_or]
    refine Nat.eq_of_testBit_eq fun i ↦ ?_
    rw [Nat.testBit_and, Nat.testBit_or]
    cases (mask bit).toNat.testBit i <;> simp
  rw [testBit, hget]
  dsimp only
  rw [hself, decide_eq_true (mask_ne_zero bit)]

theorem testBit_setBit {bits : Bytes} {bit : ℕ} (bit' : ℕ) (h : testBit bits bit = .ok true) :
    testBit (setBit bits bit') bit = .ok true := by
  rw [testBit] at h ⊢
  rw [setBit, List.getElem?_modify]
  split at h
  next b hb =>
    rw [hb]
    have hne : b &&& mask bit ≠ 0 := by simpa using Except.ok.inj h
    by_cases hbit : bit' / 8 = bit / 8
    · simp only [hbit, if_true, Option.map_eq_map, Option.map_some]
      congr 1
      rw [decide_eq_true]
      intro hzero
      rw [← UInt8.toNat_inj, UInt8.toNat_and, UInt8.toNat_or, Nat.and_or_distrib_right] at hzero
      have hleft := (Nat.or_eq_zero_iff.mp hzero).1
      rw [← UInt8.toNat_and] at hleft
      exact hne (UInt8.toNat_inj.mp hleft)
    · simp only [hbit, if_false, Option.map_eq_map, Option.map_some]
      rw [decide_eq_true hne]
  next => cases h

theorem testBit_foldl {bits : Bytes} {bit : ℕ} (l : List ℕ) (h : testBit bits bit = .ok true) :
    testBit (l.foldl setBit bits) bit = .ok true := by
  induction l generalizing bits with
  | nil => exact h
  | cons bit' l ih => exact ih (testBit_setBit bit' h)

theorem length_foldl_setBit (l : List ℕ) (bits : Bytes) :
    (l.foldl setBit bits).length = bits.length := by
  induction l generalizing bits with
  | nil => rfl
  | cons bit l ih => rw [List.foldl_cons, ih, length_setBit]

theorem testAll_eq_true {bits : Bytes} {l : List ℕ} (h : ∀ bit ∈ l, testBit bits bit = .ok true) :
    testAll bits l = .ok true := by
  induction l with
  | nil => rfl
  | cons bit l ih =>
    rw [testAll, h bit List.mem_cons_self, Except.ok_bind]
    exact ih fun bit' hbit' ↦ h bit' (List.mem_cons_of_mem _ hbit')

theorem WellFormed.div_lt {f : BloomFilter} (h : f.WellFormed) {key : Bytes} {bit : ℕ}
    (hbit : bit ∈ f.probeBits key) : bit / 8 < f.bits.length := by
  obtain ⟨i, -, hi⟩ := List.mem_map.mp hbit
  have hlt : bit < f.m := hi ▸ Nat.mod_lt _ h.pos
  rw [h.bits]
  omega

theorem WellFormed.total {f : BloomFilter} (h : f.WellFormed) (key : Bytes) :
    ∃ b, f.mightContain key = .ok b := by
  have hbit : ∀ bit ∈ f.probeBits key, ∃ b, testBit f.bits bit = .ok b := by
    intro bit hmem
    rw [testBit, List.getElem?_eq_getElem (h.div_lt hmem)]
    exact ⟨_, rfl⟩
  rw [mightContain, if_neg fun hz ↦ h.pos.ne' hz.1]
  generalize f.probeBits key = l at hbit
  induction l with
  | nil => exact ⟨true, rfl⟩
  | cons bit l ih =>
    obtain ⟨b, hb⟩ := hbit bit List.mem_cons_self
    rw [testAll, hb, Except.ok_bind]
    cases b with
    | false => exact ⟨false, rfl⟩
    | true => exact ih fun bit' hmem ↦ hbit bit' (List.mem_cons_of_mem _ hmem)

theorem WellFormed.insert {f : BloomFilter} (h : f.WellFormed) (key : Bytes) :
    (f.insert key).WellFormed where
  pos := h.pos
  m_lt := h.m_lt
  k_lt := h.k_lt
  bits := (length_foldl_setBit ..).trans h.bits

theorem testBit_insert {f : BloomFilter} (h : f.WellFormed) {key : Bytes} {bit : ℕ}
    (hbit : bit ∈ f.probeBits key) : testBit (f.insert key).bits bit = .ok true := by
  have hind : ∀ (l : List ℕ) (bits : Bytes), bit ∈ l → bit / 8 < bits.length →
      testBit (l.foldl setBit bits) bit = .ok true := by
    intro l
    induction l with
    | nil => intro bits hl _; cases hl
    | cons bit' l ih =>
      intro bits hl hlt
      rcases List.mem_cons.mp hl with rfl | hl
      · exact testBit_foldl l (testBit_setBit_self hlt)
      · exact ih _ hl (by rwa [length_setBit])
  exact hind _ _ hbit (h.div_lt hbit)

/-- The filter after inserting some keys. -/
def insertAll (f : BloomFilter) (keys : List Bytes) : BloomFilter := keys.foldl insert f

theorem WellFormed.insertAll {f : BloomFilter} (h : f.WellFormed) (keys : List Bytes) :
    (f.insertAll keys).WellFormed := by
  induction keys generalizing f with
  | nil => exact h
  | cons key keys ih => exact ih (h.insert key)

theorem insertAll_m_k (f : BloomFilter) (keys : List Bytes) :
    (f.insertAll keys).m = f.m ∧ (f.insertAll keys).k = f.k := by
  induction keys generalizing f with
  | nil => exact ⟨rfl, rfl⟩
  | cons key keys ih => exact ih (f.insert key)

theorem testBit_insertAll {f : BloomFilter} {bit : ℕ} (keys : List Bytes)
    (h : testBit f.bits bit = .ok true) : testBit (f.insertAll keys).bits bit = .ok true := by
  induction keys generalizing f with
  | nil => exact h
  | cons key keys ih => exact ih (testBit_foldl _ h)

/-- **No false negatives.** A filter may contain every key that was inserted. -/
theorem mightContain_insertAll {f : BloomFilter} (h : f.WellFormed) {keys : List Bytes} {key : Bytes}
    (hkey : key ∈ keys) : (f.insertAll keys).mightContain key = .ok true := by
  have hprobe : (f.insertAll keys).probeBits key = f.probeBits key := by
    rw [probeBits, probeBits, (insertAll_m_k f keys).1, (insertAll_m_k f keys).2]
  rw [mightContain, if_neg (fun hz ↦ (h.insertAll keys).pos.ne' hz.1), hprobe]
  refine testAll_eq_true fun bit hbit ↦ ?_
  clear hprobe
  induction keys generalizing f with
  | nil => cases hkey
  | cons key' keys ih =>
    rcases List.mem_cons.mp hkey with rfl | hkey
    · exact testBit_insertAll keys (testBit_insert h hbit)
    · exact ih (h.insert key') hkey hbit

end BloomFilter
