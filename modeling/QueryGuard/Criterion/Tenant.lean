import QueryGuard.Criterion.Basic
/-!
Callers see what their tenant owns.
-/

set_option autoImplicit false

namespace QueryGuard.Criterion

/-- Compares the owner of a row with the caller's tenant. The tenant that stands for none sees all
rows. -/
def tenantPredicate (context : CriterionContext) (attr parameter : String) : Predicate :=
  .anyOf [
    .equality (.ofParameter parameter) (.ofString context.schema.sentinel),
    .equality (context.attr attr) (.ofParameter parameter)]

/-- The criterion of tenants, with the local name of its parameter. -/
def tenant (parameter : String := "tenantId") : Criterion where
  name := "tenant"
  appliesTo := fun entity => entity.lifecycle.tenant.isSome
  contribute := fun context =>
    return context.entity.lifecycle.tenant.map fun attr =>
      let parameter := context.parameter parameter
      { predicate := tenantPredicate context attr parameter
        parameters :=
          [(parameter, .string (context.security.tenantOr context.schema.sentinel))] }

end QueryGuard.Criterion
