import Bkndb.Lsm.Tx

/-!
# The contents of a database

What a storage engine is for: a map from the keys of a table to values, for each table. A put or a
delete changes one key of one table, a lookup asks for one key, and a scan yields the entries of a
table within the bounds, in order. The shared key space represents the contents when the keys with a
table's prefix are the keys of that table.

`Answers` is the interface at which the storage is used: the other storage of the source, which
keeps its tables in memory, is described by the same structure.
-/

open Layers

/-- A map for each table. -/
abbrev Contents := String → OrdMap Bytes Bytes

namespace Contents

def put (M : Contents) (table : String) (key value : Bytes) : Contents :=
  Function.update M table ((M table).insert key value)

def delete (M : Contents) (table : String) (key : Bytes) : Contents :=
  Function.update M table ((M table).erase key)

/-- The calls answer from the contents. -/
structure Answers (M : Contents) (get : String → Bytes → Except BknError (Option Bytes))
    (scan : String → Bound Bytes → Bound Bytes →
      Except BknError (List (Except BknError (Bytes × Bytes))))
    (range : String → Bound Bytes → Bound Bytes → Except BknError (List (Bytes × Bytes))) :
    Prop where
  get_eq : ∀ table, Keys.Named table → ∀ key, get table key = .ok ((M table).get? key)
  scan_eq : ∀ table, Keys.Named table → ∀ start stop,
    scan table start stop = .ok (((M table).range start stop).map .ok)
  range_eq : ∀ table, Keys.Named table → ∀ start stop,
    range table start stop = .ok ((M table).range start stop)

/-! ## The shared key space

Keys of different tables differ, and a key of a table is the key of one user key, as long as the
name of the table fits its length byte. Nothing is said about other names, with which no key can be
made. -/

/-- The keys with a table's prefix are the keys of the table. -/
def Represents (D : OrdMap Bytes Bytes) (M : Contents) : Prop :=
  ∀ table, Keys.Named table → Keys.IsTable D (Keys.prefixBytes table) (M table)

theorem represents_empty : Represents ∅ fun _ ↦ ∅ := fun _ _ _ ↦ rfl

theorem Represents.write {D D' : OrdMap Bytes Bytes} {M : Contents} (h : Represents D M)
    {table : String} (hname : Keys.Named table) {key : Bytes} {m : OrdMap Bytes Bytes}
    {o : Option Bytes} (hself : m.get? key = o) (hother : ∀ k, k ≠ key → m.get? k = (M table).get? k)
    (hself' : D'.get? (Keys.prefixBytes table ++ key) = o)
    (hother' : ∀ k, k ≠ Keys.prefixBytes table ++ key → D'.get? k = D.get? k) :
    Represents D' (Function.update M table m) := by
  intro t ht k
  by_cases htable : t = table
  · subst htable
    rw [Function.update_self]
    by_cases hk : k = key
    · rw [hk, hself, hself']
    · rw [hother k hk, hother' _ fun heq ↦ hk (List.append_cancel_left heq), h t ht k]
  · rw [Function.update_of_ne htable, hother' _ fun heq ↦ ?_, h t ht k]
    exact htable (Keys.prefixBytes_append_inj ht hname heq).1

theorem get?_applyBatch_insert_self (D : OrdMap Bytes Bytes) (p : Pending) (k : Bytes)
    (o : Option Bytes) : (applyBatch D (p.insert k o)).get? k = o := by
  rw [get?_applyBatch, OrdMap.get?_insert_self, Option.getD_some]

theorem get?_applyBatch_insert_of_ne (D : OrdMap Bytes Bytes) (p : Pending) {k k' : Bytes}
    (o : Option Bytes) (h : k' ≠ k) :
    (applyBatch D (p.insert k o)).get? k' = (applyBatch D p).get? k' := by
  rw [get?_applyBatch, get?_applyBatch, OrdMap.get?_insert_of_ne _ _ h]

/-- A put goes into the batch. -/
theorem Represents.put {D : OrdMap Bytes Bytes} {p : Pending} {M : Contents}
    (h : Represents (applyBatch D p) M) {table : String} (hname : Keys.Named table)
    (key value : Bytes) :
    Represents (applyBatch D (p.insert (Keys.prefixBytes table ++ key) (some value)))
      (M.put table key value) :=
  h.write hname (OrdMap.get?_insert_self ..) (fun _ hk ↦ OrdMap.get?_insert_of_ne _ _ hk)
    (get?_applyBatch_insert_self ..) fun _ hk ↦ get?_applyBatch_insert_of_ne _ _ _ hk

/-- A delete goes into the batch. -/
theorem Represents.delete {D : OrdMap Bytes Bytes} {p : Pending} {M : Contents}
    (h : Represents (applyBatch D p) M) {table : String} (hname : Keys.Named table) (key : Bytes) :
    Represents (applyBatch D (p.insert (Keys.prefixBytes table ++ key) none))
      (M.delete table key) :=
  h.write hname (OrdMap.get?_erase_self ..) (fun _ hk ↦ OrdMap.get?_erase_of_ne _ hk)
    (get?_applyBatch_insert_self ..) fun _ hk ↦ get?_applyBatch_insert_of_ne _ _ _ hk

/-- Who answers from the shared key space answers from the contents. -/
theorem Represents.answers {D : OrdMap Bytes Bytes} {M : Contents} (h : Represents D M)
    {get : String → Bytes → Except BknError (Option Bytes)}
    {scan : String → Bound Bytes → Bound Bytes →
      Except BknError (List (Except BknError (Bytes × Bytes)))}
    {range : String → Bound Bytes → Bound Bytes → Except BknError (List (Bytes × Bytes))}
    (ha : Lsm.AnswersFrom D get scan range) : M.Answers get scan range := by
  have htable : ∀ table, Keys.Named table → Keys.tableOf D (Keys.prefixBytes table) = M table :=
    fun table hname ↦ OrdMap.ext fun k ↦
      (Keys.isTable_tableOf D _ k).trans (h table hname k).symm
  refine ⟨fun table hname key ↦ ?_, fun table hname start stop ↦ ?_,
    fun table hname start stop ↦ ?_⟩
  · rw [ha.get_eq table hname, htable table hname]
  · rw [ha.scan_eq table hname, htable table hname]
  · rw [ha.range_eq table hname, htable table hname]

end Contents
