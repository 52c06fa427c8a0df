import QueryGuard.Criterion.Basic
/-!
Nobody sees what was deleted.
-/

set_option autoImplicit false

namespace QueryGuard.Criterion

/-- The criterion of deleted rows: their mark of deletion is not null. -/
def softDelete : Criterion where
  name := "soft-delete"
  appliesTo := fun entity => entity.lifecycle.softDelete.isSome
  contribute := fun context =>
    return context.entity.lifecycle.softDelete.map fun attr =>
      { predicate := .test (.isNull (context.attr attr) false), parameters := [] }

end QueryGuard.Criterion
