import Bkndb.Relational.Query

/-!
# What text and vector search share

Hits and filters (`relational/search/mod.rs`). Scores are `f64` in the source, and any numbers here.

Both searches rank the rows first and fetch them afterwards, best first, until enough of them pass
the filter. A filter is checked before anything is searched, so that an unknown column is an error
also where nothing is found.
-/

/-- A search hit: the row and its score. -/
structure ScoredRow (S : Type) where
  row : Row
  score : S

namespace TableStore

variable [Unicode] {schema : TableSchema}

/-- The filter as a query, its columns checked. -/
def validatedFilter (schema : TableSchema) : Option Expr → Except BknError (Option Query)
  | none => return none
  | some f => do
    let q : Query := { filters := [f] }
    q.checkColumns schema
    return some q

/-- A filter, if there is one, accepts a row. -/
def passes (schema : TableSchema) (filter : Option Query) (row : Row) : Bool :=
  filter.all (·.matchesRow schema row)

theorem validatedFilter_spec {filter : Option Expr}
    (h : ∀ f ∈ filter, Query.checkColumns { filters := [f] } schema = .ok ()) :
    ∃ q, validatedFilter schema filter = .ok q ∧ ∀ row, passes schema q row = true ↔
      ∀ f ∈ filter, Expr.eval schema row f = true := by
  cases filter with
  | none => exact ⟨none, rfl, fun row ↦ by simp [passes]⟩
  | some f =>
    refine ⟨some { filters := [f] }, by rw [validatedFilter, h f rfl]; rfl, fun row ↦ ?_⟩
    simp [passes, Query.matchesRow]

end TableStore
