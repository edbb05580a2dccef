import Bkndb.Basic.Bincode
import Bkndb.Core.Value

/-!
# Values as bytes

The bytes `bincode::serialize` writes for values: the number of the variant, then its fields, with
every length in eight bytes. Grouping looks its keys up by these bytes, which is sound because the
scalar values, of any length a machine word can hold, are told apart by them (`serializeKey_inj`).

## How far it goes

Floats and values with parts are written as well, but they are not told apart by their bytes as
`==` tells them apart: two floats that compare as equal may have different bytes, and so may two
lists of them. `IsScalar` leaves them out.
-/

/-- Two values written in front of something are equal when the results are. -/
theorem Codec.encode_append_inj {α : Type} (c : Codec α) {a b : α} {r s : Bytes} (ha : c.Valid a)
    (hb : c.Valid b) (h : c.encode a ++ r = c.encode b ++ s) : a = b ∧ r = s := by
  have hdecode := c.decode_encode a ha r
  rw [h, c.decode_encode b hb s, Option.some.injEq, Prod.mk.injEq] at hdecode
  exact ⟨hdecode.1.symm, hdecode.2.symm⟩

namespace PropValue

/-- The number of a variant. -/
def variant : PropValue → ℕ
  | null => 0
  | bool _ => 1
  | int _ => 2
  | float _ => 3
  | str _ => 4
  | bytes _ => 5
  | timestamp _ => 6
  | uuid _ => 7
  | list _ => 8
  | map _ => 9

mutual

/-- The bytes of a variant's fields. -/
def serializeFields : PropValue → Bytes
  | null => []
  | bool b => Codec.bool.encode b
  | int i | timestamp i => Codec.u64.encode i.toUInt64.toNat
  | float f => Codec.u64.encode f.bits.toNat
  | str s => Codec.bytes.encode s.utf8
  | bytes b => Codec.bytes.encode b
  | uuid u => u.toList
  | list l => Codec.u64.encode l.length ++ serializeItems l
  | map m => Codec.u64.encode m.length ++ serializeEntries m

/-- The bytes of values one after another. -/
def serializeItems : List PropValue → Bytes
  | [] => []
  | v :: l => Codec.u32.encode v.variant ++ serializeFields v ++ serializeItems l

/-- The bytes of named values one after another. -/
def serializeEntries : List (String × PropValue) → Bytes
  | [] => []
  | (k, v) :: m =>
    Codec.bytes.encode k.utf8 ++ (Codec.u32.encode v.variant ++ serializeFields v) ++
      serializeEntries m

end

/-- `bincode::serialize` of a vector of values. -/
def serializeKey (key : List PropValue) : Bytes :=
  Codec.u64.encode key.length ++ serializeItems key

/-- A length is a machine word, as every length of a string or a byte string is. -/
def FitsWord : PropValue → Prop
  | str s => s.utf8.length < 2 ^ 64
  | bytes b => b.length < 2 ^ 64
  | _ => True

/-- A null or a value without parts, no number with a fraction, whose length fits. -/
def IsScalar (v : PropValue) : Prop :=
  v.FitsWord ∧ match v with
    | float _ | list _ | map _ => False
    | _ => True

theorem variant_lt (v : PropValue) : v.variant < 256 ^ 4 := by
  cases v <;> simp [variant]

/-- **The fields of a scalar tell it apart.** -/
theorem serializeFields_inj {v w : PropValue} (hv : v.IsScalar) (hw : w.IsScalar)
    (hvariant : v.variant = w.variant) {r s : Bytes}
    (h : serializeFields v ++ r = serializeFields w ++ s) : v = w ∧ r = s := by
  have hword : ∀ i j : Int64, Codec.u64.encode i.toUInt64.toNat ++ r =
      Codec.u64.encode j.toUInt64.toNat ++ s → i = j ∧ r = s := by
    intro i j hij
    obtain ⟨hnat, hr⟩ := Codec.u64.encode_append_inj (i.toUInt64.toNat_lt) (j.toUInt64.toNat_lt) hij
    exact ⟨Int64.toBitVec_inj.mp (congrArg UInt64.toBitVec (UInt64.toNat_inj.mp hnat)), hr⟩
  cases v with
  | null =>
    cases w with
    | null => exact ⟨rfl, h⟩
    | _ => simp [variant] at hvariant
  | bool x =>
    cases w with
    | bool y =>
      obtain ⟨rfl, hr⟩ := Codec.bool.encode_append_inj trivial trivial h
      exact ⟨rfl, hr⟩
    | _ => simp [variant] at hvariant
  | int x =>
    cases w with
    | int y =>
      obtain ⟨rfl, hr⟩ := hword x y h
      exact ⟨rfl, hr⟩
    | _ => simp [variant] at hvariant
  | timestamp x =>
    cases w with
    | timestamp y =>
      obtain ⟨rfl, hr⟩ := hword x y h
      exact ⟨rfl, hr⟩
    | _ => simp [variant] at hvariant
  | str x =>
    cases w with
    | str y =>
      obtain ⟨hutf8, hr⟩ := Codec.bytes.encode_append_inj (Codec.valid_bytes hv.1)
        (Codec.valid_bytes hw.1) h
      exact ⟨congrArg str (String.utf8_injective hutf8), hr⟩
    | _ => simp [variant] at hvariant
  | bytes x =>
    cases w with
    | bytes y =>
      obtain ⟨rfl, hr⟩ := Codec.bytes.encode_append_inj (Codec.valid_bytes hv.1)
        (Codec.valid_bytes hw.1) h
      exact ⟨rfl, hr⟩
    | _ => simp [variant] at hvariant
  | uuid x =>
    cases w with
    | uuid y =>
      obtain ⟨hlist, hr⟩ := List.append_inj h (by simp [serializeFields])
      exact ⟨congrArg uuid (Vector.toList_inj.mp hlist), hr⟩
    | _ => simp [variant] at hvariant
  | float => exact hv.2.elim
  | list => exact hv.2.elim
  | map => exact hv.2.elim

theorem serializeItems_inj {k l : List PropValue} (hlen : k.length = l.length)
    (hk : ∀ v ∈ k, v.IsScalar) (hl : ∀ v ∈ l, v.IsScalar)
    (h : serializeItems k = serializeItems l) : k = l := by
  induction k generalizing l with
  | nil => exact (List.length_eq_zero_iff.mp hlen.symm).symm
  | cons v k ih =>
    obtain _ | ⟨w, l⟩ := l
    · simp at hlen
    · simp only [serializeItems, List.append_assoc] at h
      obtain ⟨hvariant, h⟩ := Codec.u32.encode_append_inj (variant_lt v) (variant_lt w) h
      obtain ⟨rfl, hrest⟩ := serializeFields_inj (hk v List.mem_cons_self)
        (hl w List.mem_cons_self) hvariant h
      rw [ih (Nat.succ.inj hlen) (fun v hv ↦ hk v (List.mem_cons_of_mem _ hv))
        (fun v hv ↦ hl v (List.mem_cons_of_mem _ hv)) hrest]

/-- **Keys of one length are encoded alike only if they are the same.** -/
theorem serializeKey_inj {k l : List PropValue} (hlen : k.length = l.length)
    (hk : ∀ v ∈ k, v.IsScalar) (hl : ∀ v ∈ l, v.IsScalar)
    (h : serializeKey k = serializeKey l) : k = l := by
  rw [serializeKey, serializeKey, hlen] at h
  exact serializeItems_inj hlen hk hl (List.append_cancel_left h)

end PropValue
