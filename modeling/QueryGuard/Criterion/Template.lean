import QueryGuard.Criterion.Basic
import QueryGuard.Syntax.Parser
/-!
Criteria written as queries whose WHERE clause is the condition to add.
-/

set_option autoImplicit false

namespace QueryGuard

/-- A query with placeholders for the range, its entity and the text that parameter names start
with. -/
structure Template where
  name : String
  /-- The entity that the criterion applies to; all of them if none is given. -/
  entity : Option String
  /-- The only alias that the criterion adds something for, if one is given. -/
  onlyAlias : Option String
  source : String
  parameters : List (String × Value)

namespace Template

/-- How many levels of queries the template may hold. -/
def depth : Nat := 8

/-- The source with its placeholders filled in. -/
def filled (template : Template) (context : CriterionContext) : String :=
  template.source.replace "$alias" context.name
    |>.replace "$entity" context.entity.name
    |>.replace "$prefix" (context.parameter "")

/-- The template as a criterion. -/
def criterion (template : Template) : Criterion where
  name := template.name
  appliesTo := fun entity => template.entity.all (· == entity.name)
  contribute := fun context =>
    if template.onlyAlias.any (· != context.name) then return none
    else
      match Query.parse (template.filled context) depth with
      | .ok query =>
          return query.filter.map fun predicate =>
            { predicate
              parameters := template.parameters.map fun (name, value) =>
                (context.parameter name, value) }
      | .error error => throw (.syntactic error)

end Template

end QueryGuard
