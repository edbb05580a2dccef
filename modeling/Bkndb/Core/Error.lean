import Bkndb.Basic.Except
import Bkndb.Core.Value

/-!
# Errors

The error type of the engine (`error.rs`), the checks that every module raises it from, and the
overflow of the machine's integers.

## Messages

Messages are kept as the pieces they are formatted from, so that a value printed with `{:?}` stays
the value: two errors are equal when the source would print the same text for them.

## Panics

The model follows one build throughout: overflow checks are on and debug assertions are off, which
are two settings of the compiler.

* A `+` that leaves its type is a panic (`checkedAdd`), as are a failed `expect`, a slice that ends
  past its bytes and a capacity that no allocation can have.
* A `debug_assert` is no step. `encode_edge_type` goes on with the length cut to sixteen bits, and
  the writer of an SSTable does not look at the order of the keys it is given.
* A cast with `as` cuts the number down, and `wrapping_mul` and the saturating operations are what
  they say, in every build.
-/

/-- A piece of a formatted message. -/
inductive Piece where
  /-- Literal text. -/
  | text (s : String)
  /-- A string printed with `{:?}`. -/
  | quoted (s : String)
  /-- A value printed with `{:?}`. -/
  | debug (v : PropValue)

/-- A formatted message. -/
abbrev Message := List Piece

instance : Coe String Message := ⟨fun s ↦ [.text s]⟩

/-- What a failed operation returns. -/
inductive BknError where
  | backend (message : String)
  | tableNotFound (name : String)
  | notFound
  | encoding (message : String)
  | reservedTableName (name : String)
  /-- Another handle has the database file open. -/
  | databaseLocked (path : String)
  /-- An insert with an explicit primary key collided with an existing row. -/
  | duplicateKey (table : String) (key : Message)
  /-- A value does not match its declared column kind, or names an undeclared column. -/
  | schemaMismatch (table : String) (message : String)
  /-- A `NOT NULL` or `UNIQUE` constraint would be violated. -/
  | constraintViolation (table : String) (message : Message)
  /-- Stored data failed an integrity check. -/
  | corruption (message : String)
  /-- A query does not parse or does not make sense. -/
  | invalidQuery (message : Message)
  /-- Not an error value of the source but a panic: an overflowing `+`, a failed `expect`. The
  unwinding thread drops its transaction, as an error return does. -/
  | panic (message : String)

/-- The physical table names reserved for internal use. -/
def reservedTableNames : List String :=
  ["nodes", "edges", "adj_out", "adj_in", "meta", "node_labels", "node_props"]

/-- Refuse a reserved table name. -/
def checkTableName (name : String) : Except BknError Unit :=
  .guardOr (name ∉ reservedTableNames) (.reservedTableName name)

/-- `a + b` on `u64`: an overflow panics. -/
def checkedAdd (a b : ℕ) : Except BknError ℕ :=
  if a + b < 2 ^ 64 then .ok (a + b) else .error (.panic "attempt to add with overflow")

theorem checkedAdd_eq_ok {a b c : ℕ} : checkedAdd a b = .ok c ↔ a + b < 2 ^ 64 ∧ c = a + b := by
  rw [checkedAdd]
  split
  · simp_all [eq_comm]
  · simp_all

theorem panic_of_checkedAdd {a b : ℕ} {e : BknError} (h : checkedAdd a b = .error e) :
    ∃ message, e = .panic message := by
  rw [checkedAdd] at h
  split at h
  · simp at h
  · exact ⟨_, (Except.error.inj h).symm⟩
