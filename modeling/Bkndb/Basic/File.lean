import Bkndb.Basic.Bytes

/-!
# Files

A file is its contents. Writing past the end fills the gap with zeros; writing nothing changes
nothing, wherever it is aimed at.

Positions are natural numbers and contents are lists, so a gap that a write past the end leaves is
filled with zeros here, as a file system does. Most facts are about a write or a slice that lies
inside the file: they carry that as a hypothesis, and a caller that has it never meets the gap.
-/

namespace Bytes

/-- The bytes from `off` on, `len` of them if there are as many. -/
def slice (f : Bytes) (off len : ℕ) : Bytes := (f.drop off).take len

/-- The contents after writing `b` at `off`. -/
def writeAt (f : Bytes) (off : ℕ) (b : Bytes) : Bytes :=
  if b = [] then f
  else f.take off ++ List.replicate (off - f.length) 0 ++ b ++ f.drop (off + b.length)

/-- The contents after cutting or extending the file to `n` bytes. -/
def setLen (f : Bytes) (n : ℕ) : Bytes := f.take n ++ List.replicate (n - f.length) 0

theorem length_slice (f : Bytes) (off len : ℕ) :
    (f.slice off len).length = min len (f.length - off) := by
  rw [slice, List.length_take, List.length_drop]

theorem length_slice_of_le {f : Bytes} {off len : ℕ} (h : off + len ≤ f.length) :
    (f.slice off len).length = len := by
  rw [length_slice]
  omega

theorem slice_append_left {f : Bytes} {off len : ℕ} (h : off + len ≤ f.length) (g : Bytes) :
    (f ++ g).slice off len = f.slice off len := by
  rw [slice, slice, List.drop_append_of_le_length (by omega), List.take_append_of_le_length]
  rw [List.length_drop]
  omega

theorem slice_append_right (f g : Bytes) (off len : ℕ) :
    (f ++ g).slice (f.length + off) len = g.slice off len := by
  rw [slice, slice, List.drop_append, List.drop_eq_nil_of_le (by omega), List.nil_append]
  congr 2
  omega

theorem slice_middle (a b c : Bytes) : (a ++ b ++ c).slice a.length b.length = b := by
  rw [slice, List.append_assoc, List.drop_left, List.take_left]

/-- A part of a byte string given by what stands before and behind it. -/
theorem slice_of_eq {f : Bytes} (a b c : Bytes) {off len : ℕ} (h : f = a ++ (b ++ c))
    (ha : a.length = off) (hb : b.length = len) : f.slice off len = b := by
  subst ha hb
  rw [h, ← List.append_assoc]
  exact slice_middle a b c

theorem take_slice_drop (f : Bytes) (off len : ℕ) :
    f = f.take off ++ (f.slice off len ++ f.drop (off + len)) := by
  rw [slice, ← List.drop_drop, List.take_append_drop, List.take_append_drop]

/-- A write inside the file replaces the bytes there. -/
theorem writeAt_of_le {f : Bytes} {off : ℕ} {b : Bytes} (h : off ≤ f.length) :
    f.writeAt off b = f.take off ++ b ++ f.drop (off + b.length) := by
  rw [writeAt]
  split
  next hb => simp [hb]
  next => rw [Nat.sub_eq_zero_of_le h, List.replicate_zero, List.append_nil]

theorem writeAt_length (f b : Bytes) : f.writeAt f.length b = f ++ b := by
  rw [writeAt_of_le le_rfl, List.take_length, List.drop_eq_nil_of_le (by omega), List.append_nil]

theorem length_writeAt_of_le {f : Bytes} {off : ℕ} {b : Bytes} (h : off + b.length ≤ f.length) :
    (f.writeAt off b).length = f.length := by
  rw [writeAt_of_le (by omega), List.length_append, List.length_append, List.length_take,
    List.length_drop]
  omega

theorem slice_writeAt_before {f : Bytes} {off len pos : ℕ} {b : Bytes} (hw : pos ≤ f.length)
    (h : off + len ≤ pos) : (f.writeAt pos b).slice off len = f.slice off len := by
  have htake : (f.take pos).length = pos := List.length_take_of_le hw
  rw [writeAt_of_le hw, List.append_assoc, slice_append_left (by omega)]
  conv_rhs => rw [← List.take_append_drop pos f]
  rw [slice_append_left (by omega)]

theorem slice_writeAt_after {f : Bytes} {off len pos : ℕ} {b : Bytes} (hw : pos ≤ f.length)
    (h : pos + b.length ≤ off) : (f.writeAt pos b).slice off len = f.slice off len := by
  have htake : (f.take pos ++ b).length = pos + b.length := by
    rw [List.length_append, List.length_take_of_le hw]
  obtain ⟨k, rfl⟩ := Nat.exists_eq_add_of_le h
  rw [writeAt_of_le hw]
  nth_rewrite 2 [← htake]
  rw [slice_append_right, slice, slice, List.drop_drop]

end Bytes
