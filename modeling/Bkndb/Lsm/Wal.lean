import Bkndb.Basic.Bincode
import Bkndb.Basic.Crc32
import Bkndb.Basic.Os
import Bkndb.Core.Error

/-!
# Write-ahead log frames

`wal.rs`: one frame for each commit, its length and checksum in front of the encoded batch. Replay
reads frames until one is cut short, does not match its checksum or does not decode; that frame and
everything behind it is discarded.

## Frames

A frame is a length, a checksum and a payload. Cut short, it is not a frame: either the length is
incomplete, or the payload is shorter than it says. Whole, it is read back whatever follows, so a
log that is frames up to some point replays to their records and then whatever the rest replays to.

What the rest replays to is not known in general: bytes that were not written as a frame may read
as one, if their checksum happens to match.
-/

/-- The writes of one transaction; a missing value deletes the key. -/
structure WalRecord where
  entries : List (Bytes × Option Bytes)
  deriving DecidableEq

namespace WalRecord

def codec : Codec WalRecord :=
  (Codec.list (Codec.bytes.prod (Codec.option Codec.bytes))).iso (fun l ↦ ⟨l⟩) WalRecord.entries
    fun _ ↦ rfl

def serialize (r : WalRecord) : Bytes := codec.encode r

/-- The record fits a frame. -/
def Fits (r : WalRecord) : Prop := r.serialize.length < 2 ^ 32

instance (r : WalRecord) : Decidable r.Fits := inferInstanceAs (Decidable (_ < _))

theorem length_serialize (r : WalRecord) :
    r.serialize.length =
      8 + (r.entries.map fun e ↦ ((Codec.bytes.prod (Codec.option Codec.bytes)).encode e).length).sum := by
  change (Codec.u64.encode _ ++ r.entries.flatMap _).length = _
  rw [List.length_append, Codec.length_encode_u64, List.length_flatMap]

theorem length_encode_entry (k : Bytes) (v : Option Bytes) :
    ((Codec.bytes.prod (Codec.option Codec.bytes)).encode (k, v)).length =
      8 + k.length + v.elim 1 (fun v ↦ 9 + v.length) := by
  cases v with
  | none =>
    change (Codec.bytes.encode k ++ [0]).length = _
    rw [List.length_append, Codec.length_encode_bytes]
    rfl
  | some v =>
    change (Codec.bytes.encode k ++ 1 :: Codec.bytes.encode v).length = _
    rw [List.length_append, Codec.length_encode_bytes, List.length_cons, Codec.length_encode_bytes]
    change _ = 8 + k.length + (9 + v.length)
    omega

theorem length_encode_entry_le {r : WalRecord} {e : Bytes × Option Bytes} (he : e ∈ r.entries) :
    ((Codec.bytes.prod (Codec.option Codec.bytes)).encode e).length ≤ r.serialize.length := by
  have hsum := List.single_le_sum (l := r.entries.map fun e ↦
    ((Codec.bytes.prod (Codec.option Codec.bytes)).encode e).length) (fun _ _ ↦ Nat.zero_le _) _
      (List.mem_map_of_mem he)
  rw [length_serialize]
  omega

theorem Fits.valid {r : WalRecord} (h : r.Fits) : codec.Valid r := by
  rw [Fits] at h
  refine ⟨?_, ?_⟩
  · have hlen : r.entries.length ≤ r.serialize.length := by
      rw [length_serialize]
      refine le_trans ?_ (Nat.le_add_left ..)
      rw [← List.length_map (f := fun e ↦
        ((Codec.bytes.prod (Codec.option Codec.bytes)).encode e).length)]
      refine List.length_le_sum_of_one_le _ fun n hn ↦ ?_
      obtain ⟨⟨k, v⟩, -, rfl⟩ := List.mem_map.mp hn
      rw [length_encode_entry]
      omega
    exact lt_of_le_of_lt hlen (h.trans (by norm_num))
  · rintro ⟨k, v⟩ he
    have hentry := lt_of_le_of_lt (length_encode_entry_le he) h
    rw [length_encode_entry] at hentry
    refine ⟨Codec.valid_bytes (by norm_num; omega), ?_⟩
    rintro v rfl
    change _ + (9 + v.length) < _ at hentry
    exact Codec.valid_bytes (by norm_num; omega)

end WalRecord

/-- An error of the operating system. -/
def ioErr : BknError := .backend "I/O error"

namespace Wal

/-- A frame around a payload. -/
def frame (payload : Bytes) : Bytes :=
  Bytes.be 4 payload.length ++ Bytes.be 4 (crc32 payload) ++ payload

/-- The frame of a record. The length has to fit four bytes. -/
def encodeFrame (r : WalRecord) : Except BknError Bytes :=
  if r.serialize.length < 2 ^ 32 then .ok (frame r.serialize)
  else .error (.backend ("transaction too large for one WAL frame (" ++
    toString r.serialize.length ++ " bytes, max 4 GiB)"))

/-- Append the frame of a record at the end of the file and wait until it is durable. -/
def append (i : ℕ) (r : WalRecord) : Effect Os BknError Unit := do
  let buf ← Effect.ofExcept (encodeFrame r)
  Os.call ioErr
  let os ← Effect.get
  Os.writeAll ioErr i (os.contents i).length buf
  Os.sync ioErr i

/-- Read the frame at the front: its record and its length. -/
def parseFrame (rest : Bytes) : Option (WalRecord × ℕ) :=
  let len := Bytes.ofBe (rest.slice 0 4)
  let payload := rest.slice 8 len
  if rest.length < 8 then none
  else if rest.length < 8 + len then none
  else if crc32 payload ≠ Bytes.ofBe (rest.slice 4 4) then none
  else (WalRecord.codec.deserialize payload).map (·, 8 + len)

/-- The frames at the front, as many as there are, and their total length. Each takes at least
eight bytes, so the length of the input is enough fuel. -/
def replayLoop : ℕ → Bytes → List WalRecord × ℕ
  | 0, _ => ([], 0)
  | fuel + 1, rest =>
    match parseFrame rest with
    | none => ([], 0)
    | some (r, n) =>
      let (rs, len) := replayLoop fuel (rest.drop n)
      (r :: rs, n + len)

/-- All frames at the front. -/
def replay (rest : Bytes) : List WalRecord × ℕ := replayLoop rest.length rest

/-- The records of the frames from `start` on, and the offset just past the last one. -/
def replayFrom (file : Bytes) (start : ℕ) : List WalRecord × ℕ :=
  let (rs, len) := replay (file.drop start)
  (rs, start + len)

/-- Recovery: replay the log and cut the file where the frames end. -/
def recover (i start : ℕ) : Effect Os BknError (List WalRecord) := do
  let os ← Effect.get
  let (records, validEnd) := replayFrom (os.contents i) start
  let len ← Os.fileLen ioErr i
  if validEnd < len then
    Os.setLen ioErr i validEnd
    Os.sync ioErr i
  return records

/-! ## Reading frames back -/

theorem encodeFrame_of_fits {r : WalRecord} (h : r.Fits) :
    encodeFrame r = .ok (frame r.serialize) := if_pos h

theorem encodeFrame_of_not_fits {r : WalRecord} (h : ¬r.Fits) : ∃ e, encodeFrame r = .error e :=
  ⟨_, if_neg h⟩

@[simp] theorem length_frame (payload : Bytes) : (frame payload).length = 8 + payload.length := by
  simp [frame]
  omega

section

variable {payload : Bytes}

theorem slice_frame_len {b : Bytes} (h : (frame payload).take 8 <+: b)
    (hlen : payload.length < 2 ^ 32) : Bytes.ofBe (b.slice 0 4) = payload.length := by
  obtain ⟨c, rfl⟩ := h
  rw [Bytes.slice_of_eq [] (Bytes.be 4 payload.length) (Bytes.be 4 (crc32 payload) ++ c)
    ?_ (List.length_nil) (Bytes.length_be ..), Bytes.ofBe_be_of_lt (by norm_num; omega)]
  rw [frame, List.take_left' (by simp), List.append_assoc]
  rfl

theorem slice_frame_crc {b : Bytes} (h : (frame payload).take 8 <+: b) :
    Bytes.ofBe (b.slice 4 4) = crc32 payload := by
  obtain ⟨c, rfl⟩ := h
  rw [Bytes.slice_of_eq (Bytes.be 4 payload.length) (Bytes.be 4 (crc32 payload)) c ?_
    (Bytes.length_be ..) (Bytes.length_be ..), Bytes.ofBe_be_of_lt (crc32_lt _)]
  rw [frame, List.take_left' (by simp), List.append_assoc]

end

/-- A complete frame is read back, whatever follows it. -/
theorem parseFrame_frame {r : WalRecord} (h : r.Fits) (rest : Bytes) :
    parseFrame (frame r.serialize ++ rest) = some (r, (frame r.serialize).length) := by
  have htake : (frame r.serialize).take 8 <+: frame r.serialize ++ rest :=
    (List.take_prefix ..).trans (List.prefix_append ..)
  have hlen := slice_frame_len htake h
  have hpayload : (frame r.serialize ++ rest).slice 8 r.serialize.length = r.serialize :=
    Bytes.slice_of_eq (Bytes.be 4 r.serialize.length ++ Bytes.be 4 (crc32 r.serialize)) _ rest
      (by rw [frame, List.append_assoc]) (by simp) rfl
  have hlength : (frame r.serialize ++ rest).length = 8 + r.serialize.length + rest.length := by
    rw [List.length_append, length_frame]
  rw [parseFrame, hlen, hpayload, slice_frame_crc htake, if_neg (by omega), if_neg (by omega),
    if_neg (not_not.mpr rfl), length_frame]
  have hdes := WalRecord.codec.deserialize_encode h.valid []
  rw [List.append_nil] at hdes
  rw [WalRecord.serialize, hdes]
  rfl

/-- A frame that is cut short is not read. -/
theorem parseFrame_of_isPrefix {payload b : Bytes} (hlen : payload.length < 2 ^ 32)
    (hstarts : b <+: frame payload) (hlt : b.length < (frame payload).length) :
    parseFrame b = none := by
  rw [parseFrame]
  by_cases h8 : b.length < 8
  · rw [if_pos h8]
  · have htake : (frame payload).take 8 <+: b := by
      obtain ⟨c, hc⟩ := hstarts
      rw [← hc, List.take_append_of_le_length (by omega)]
      exact List.take_prefix ..
    rw [if_neg h8, slice_frame_len htake hlen, if_pos (by rw [length_frame] at hlt; omega)]

theorem parseFrame_bounds {b : Bytes} {r : WalRecord} {n : ℕ} (h : parseFrame b = some (r, n)) :
    8 ≤ n ∧ n ≤ b.length := by
  rw [parseFrame] at h
  split at h
  · cases h
  · split at h
    · cases h
    · split at h
      · cases h
      · obtain ⟨r', -, h⟩ := Option.map_eq_some_iff.mp h
        obtain ⟨-, rfl⟩ := Prod.mk.inj h
        omega

theorem parseFrame_append {b : Bytes} {r : WalRecord} {n : ℕ} (h : parseFrame b = some (r, n))
    (x : Bytes) : parseFrame (b ++ x) = some (r, n) := by
  rw [parseFrame] at h ⊢
  split at h
  · cases h
  next h8 =>
    have hlen : (b ++ x).slice 0 4 = b.slice 0 4 := Bytes.slice_append_left (by omega) x
    have hcrc : (b ++ x).slice 4 4 = b.slice 4 4 := Bytes.slice_append_left (by omega) x
    rw [hlen, hcrc, List.length_append]
    split at h
    · cases h
    next hend =>
      rw [Bytes.slice_append_left (by omega) x, if_neg (by omega), if_neg (by omega)]
      exact h

theorem replayLoop_of_le {fuel : ℕ} {b : Bytes} (h : b.length ≤ fuel) :
    replayLoop fuel b = replay b := by
  have hind : ∀ (fuel fuel' : ℕ) (b : Bytes), b.length ≤ fuel → b.length ≤ fuel' →
      replayLoop fuel b = replayLoop fuel' b := by
    intro fuel
    induction fuel with
    | zero =>
      intro fuel' b hb _
      obtain rfl := List.length_eq_zero_iff.mp (Nat.le_zero.mp hb)
      cases fuel' <;> rfl
    | succ fuel ih =>
      intro fuel' b hb hb'
      cases fuel' with
      | zero =>
        obtain rfl := List.length_eq_zero_iff.mp (Nat.le_zero.mp hb')
        rfl
      | succ fuel' =>
        rw [replayLoop, replayLoop]
        rcases hp : parseFrame b with _ | ⟨r, n⟩
        · rfl
        · have hbounds := parseFrame_bounds hp
          dsimp only
          rw [ih fuel' (b.drop n) (by rw [List.length_drop]; omega)
            (by rw [List.length_drop]; omega)]
  exact hind _ _ _ h le_rfl

theorem replay_eq_of_none {b : Bytes} (h : parseFrame b = none) : replay b = ([], 0) := by
  rw [replay]
  cases b.length with
  | zero => rfl
  | succ n => rw [replayLoop, h]

theorem replay_eq_of_some {b : Bytes} {r : WalRecord} {n : ℕ} (h : parseFrame b = some (r, n)) :
    replay b = (r :: (replay (b.drop n)).1, n + (replay (b.drop n)).2) := by
  have hbounds := parseFrame_bounds h
  obtain ⟨fuel, hfuel⟩ : ∃ fuel, b.length = fuel + 1 := ⟨b.length - 1, by omega⟩
  rw [replay, hfuel, replayLoop, h]
  dsimp only
  rw [replayLoop_of_le (by rw [List.length_drop]; omega)]

/-- Replay of a part that is all frames, and then of the rest. -/
theorem replay_append {b : Bytes} (h : (replay b).2 = b.length) (x : Bytes) :
    replay (b ++ x) = ((replay b).1 ++ (replay x).1, b.length + (replay x).2) := by
  induction hn : b.length using Nat.strong_induction_on generalizing b with
  | _ n ih =>
    subst hn
    rcases hp : parseFrame b with _ | ⟨r, n⟩
    · rw [replay_eq_of_none hp] at h ⊢
      obtain rfl := List.length_eq_zero_iff.mp h.symm
      simp
    · have hbounds := parseFrame_bounds hp
      rw [replay_eq_of_some hp] at h
      have hdrop : (replay (b.drop n)).2 = (b.drop n).length := by
        rw [List.length_drop]
        dsimp only at h
        omega
      rw [replay_eq_of_some (parseFrame_append hp x), replay_eq_of_some hp,
        List.drop_append_of_le_length hbounds.2,
        ih (b.drop n).length (by rw [List.length_drop]; omega) hdrop rfl, List.length_drop]
      dsimp only
      rw [List.cons_append]
      congr 1
      omega

/-! ## Appending

An append writes at the end of the file, whatever is there, and does not look at it. -/

theorem frame_ne_nil (payload : Bytes) : frame payload ≠ [] := by
  rw [← List.length_pos_iff, length_frame]
  omega

/-- What an append does: nothing if the record is too large or the seek fails; some bytes of the
frame if the write fails; the whole frame, and then the sync. -/
theorem append_cases (i : ℕ) (r : WalRecord) (os : Os) :
    (¬r.Fits ∧ ∃ e, append i r os = (.error e, os)) ∨
    (r.Fits ∧ append i r os = (.error ioErr, os.pop.fail) ∧ os.answer ≠ .done) ∨
    (r.Fits ∧ ∃ n < (frame r.serialize).length, append i r os = (.error ioErr,
        (os.pop.pop.setContents i (os.contents i ++ (frame r.serialize).take n)).fail) ∧
      ∀ m, os.pop.answer = .fail m → n ≤ m) ∨
    (r.Fits ∧ os.answer = .done ∧ os.pop.answer = .done ∧ append i r os =
      Os.sync ioErr i (os.pop.pop.setContents i (os.contents i ++ frame r.serialize))) := by
  by_cases hfits : r.Fits
  · right
    have hframe : (Effect.ofExcept (encodeFrame r) : Effect Os BknError Bytes) os =
        (.ok (frame r.serialize), os) := by
      rw [encodeFrame_of_fits hfits]
      rfl
    rw [append, Effect.bind_apply_of_ok hframe]
    rcases Os.call_cases ioErr os with ⟨hcall, hseek⟩ | ⟨hcall, hanswer⟩
    · right
      rw [Effect.bind_apply_of_ok hcall, Effect.bind_apply_of_ok (Effect.get_apply _)]
      rcases Os.writeWith_cases false ioErr i (os.pop.contents i).length (frame r.serialize) os.pop with
        ⟨hwrite, -, hanswer⟩ | ⟨n, hwrite, hn, hm⟩
      · right
        rw [Bytes.writeAt_length] at hwrite
        rw [Os.writeAll, Effect.bind_apply_of_ok hwrite]
        exact ⟨hfits, hseek, hanswer, rfl⟩
      · left
        rw [Bytes.writeAt_length] at hwrite
        rw [Os.writeAll, Effect.bind_apply_of_error hwrite]
        exact ⟨hfits, n, hn rfl (frame_ne_nil _), rfl, hm⟩
    · left
      rw [Effect.bind_apply_of_error hcall]
      exact ⟨hfits, rfl, hanswer⟩
  · left
    obtain ⟨e, he⟩ := encodeFrame_of_not_fits hfits
    refine ⟨hfits, e, ?_⟩
    rw [append, he]
    exact Effect.bind_apply_of_error rfl

end Wal
