import Bkndb.Basic.Bytes

/-!
# A length-prefixed binary format

Codecs in the style of bincode with fixed-width integers: an integer is its bytes, least
significant first; a sequence is its length as eight bytes and then its elements; an option is a
tag byte and then its value; a record is its fields one after the other. Decoding reads from the
front and leaves the rest, so a value followed by anything is still read back.

A codec names the values it is meant for: a length has to fit its eight bytes.

## What a codec promises

A `Codec` carries its proof: decoding an encoded value that is valid, with anything behind it,
gives the value and what was behind. The combinators are built once with that proof, so the codec
of a record of the engine is an expression, and its round trip needs no proof of its own. Nothing
is said about decoding bytes that no encoder wrote, except that a decoder is a total function into
`Option`.

## Validity

Lengths are written in eight bytes and cut to that, as the format does, so a list with `2 ^ 64`
elements or more would be written wrongly. `Valid` rules those out; it is a property of the value,
not of its bytes, and every use has to establish it.
-/

/-- A way of writing values that is read back from the front. -/
structure Codec (α : Type) where
  encode : α → Bytes
  decode : Bytes → Option (α × Bytes)
  /-- The values that fit the format. -/
  Valid : α → Prop
  decode_encode : ∀ a, Valid a → ∀ rest, decode (encode a ++ rest) = some (a, rest)

namespace Codec

variable {α β : Type}

/-- Read one value and drop whatever follows it. -/
def deserialize (c : Codec α) (b : Bytes) : Option α := (c.decode b).map Prod.fst

theorem deserialize_encode (c : Codec α) {a : α} (h : c.Valid a) (rest : Bytes) :
    c.deserialize (c.encode a ++ rest) = some a := by
  rw [deserialize, c.decode_encode a h]
  rfl

/-! ## Integers -/

/-- The low `w` bytes of a number, least significant first. -/
def le (w n : ℕ) : Bytes := (Bytes.be w n).reverse

@[simp] theorem length_le (w n : ℕ) : (le w n).length = w := by
  rw [le, List.length_reverse, Bytes.length_be]

/-- An unsigned integer of `w` bytes. -/
def uint (w : ℕ) : Codec ℕ where
  encode n := le w n
  decode b := if w ≤ b.length then some (Bytes.ofBe (b.take w).reverse, b.drop w) else none
  Valid n := n < 256 ^ w
  decode_encode n hn rest := by
    have hlen : (le w n).length = w := length_le w n
    rw [if_pos (by rw [List.length_append]; omega), List.take_left' hlen, List.drop_left' hlen, le,
      List.reverse_reverse, Bytes.ofBe_be_of_lt hn]

def u32 : Codec ℕ := uint 4

def u64 : Codec ℕ := uint 8

@[simp] theorem length_encode_uint (w n : ℕ) : ((uint w).encode n).length = w := length_le w n

@[simp] theorem length_encode_u64 (n : ℕ) : (u64.encode n).length = 8 := length_le 8 n

@[simp] theorem length_encode_u32 (n : ℕ) : (u32.encode n).length = 4 := length_le 4 n

/-! ## Combinators -/

/-- One value after another. -/
def prod (c : Codec α) (d : Codec β) : Codec (α × β) where
  encode p := c.encode p.1 ++ d.encode p.2
  decode b := do
    let (x, b) ← c.decode b
    let (y, b) ← d.decode b
    return ((x, y), b)
  Valid p := c.Valid p.1 ∧ d.Valid p.2
  decode_encode p hp rest := by
    simp [List.append_assoc, c.decode_encode p.1 hp.1, d.decode_encode p.2 hp.2]

/-- The same bytes for a type that corresponds to another. -/
def iso (c : Codec α) (toFun : α → β) (inv : β → α) (h : ∀ b, toFun (inv b) = b) : Codec β where
  encode b := c.encode (inv b)
  decode b := (c.decode b).map (Prod.map toFun id)
  Valid b := c.Valid (inv b)
  decode_encode b hb rest := by
    rw [c.decode_encode _ hb, Option.map_some, Prod.map_apply, h, id_eq]

/-- A byte that is `0` or `1`. -/
def bool : Codec Bool where
  encode b := [if b then 1 else 0]
  decode
    | 0 :: rest => some (false, rest)
    | 1 :: rest => some (true, rest)
    | _ => none
  Valid _ := True
  decode_encode b _ rest := by cases b <;> rfl

/-- A tag byte, then the value if there is one. -/
def option (c : Codec α) : Codec (Option α) where
  encode
    | none => [0]
    | some a => 1 :: c.encode a
  decode
    | 0 :: rest => some (none, rest)
    | 1 :: rest => (c.decode rest).map (Prod.map some id)
    | _ => none
  Valid o := ∀ a, o = some a → c.Valid a
  decode_encode o ho rest := by
    cases o with
    | none => rfl
    | some a => simp [c.decode_encode a (ho a rfl)]

/-- Read `n` values. -/
def decodeN (c : Codec α) : ℕ → Bytes → Option (List α × Bytes)
  | 0, b => some ([], b)
  | n + 1, b => do
    let (x, b) ← c.decode b
    let (xs, b) ← decodeN c n b
    return (x :: xs, b)

theorem decodeN_flatMap (c : Codec α) {l : List α} (h : ∀ a ∈ l, c.Valid a) (rest : Bytes) :
    c.decodeN l.length (l.flatMap c.encode ++ rest) = some (l, rest) := by
  induction l with
  | nil => rfl
  | cons a l ih =>
    have ha := c.decode_encode a (h a List.mem_cons_self) (l.flatMap c.encode ++ rest)
    have hl := ih fun b hb ↦ h b (List.mem_cons_of_mem _ hb)
    simp [decodeN, List.flatMap_cons, List.append_assoc, ha, hl]

/-- The number of values, then the values. -/
def list (c : Codec α) : Codec (List α) where
  encode l := u64.encode l.length ++ l.flatMap c.encode
  decode b := do
    let (n, b) ← u64.decode b
    c.decodeN n b
  Valid l := u64.Valid l.length ∧ ∀ a ∈ l, c.Valid a
  decode_encode l hl rest := by
    simp [List.append_assoc, u64.decode_encode _ hl.1, c.decodeN_flatMap hl.2]

/-- A byte as an element of a sequence. -/
def byte : Codec UInt8 where
  encode b := [b]
  decode
    | b :: rest => some (b, rest)
    | [] => none
  Valid _ := True
  decode_encode _ _ _ := rfl

/-- A byte string. -/
def bytes : Codec Bytes := list byte

theorem encode_bytes (b : Bytes) : bytes.encode b = u64.encode b.length ++ b := by
  change _ ++ b.flatMap (fun x ↦ [x]) = _
  rw [List.flatMap_singleton']

@[simp] theorem length_encode_bytes (b : Bytes) : (bytes.encode b).length = 8 + b.length := by
  rw [encode_bytes, List.length_append, length_encode_u64]

theorem valid_bytes {b : Bytes} (h : b.length < 256 ^ 8) : bytes.Valid b := ⟨h, fun _ _ ↦ trivial⟩

end Codec
