import QueryGuard.Criterion.SecurityContext
import QueryGuard.QueryError
/-!
Criteria: rules that say which rows of an entity a caller may see.
-/

set_option autoImplicit false

namespace QueryGuard

/-- What a criterion adds for one range: a condition, and the values of its parameters. -/
structure Contribution where
  predicate : Predicate
  parameters : List (String × Value)

/-- What a criterion may look at: the range with its entity, the catalog, the caller, and the text
that parameter names start with. -/
structure CriterionContext where
  name : String
  entity : Entity
  schema : Schema
  security : SecurityContext
  parameterPrefix : String

namespace CriterionContext

/-- The full name of a parameter. -/
def parameter (context : CriterionContext) (localName : String) : String :=
  context.parameterPrefix ++ localName

/-- An attribute of the range. -/
def attr (context : CriterionContext) (name : String) : Expr := .ofPath context.name [name]

/-- The range itself. -/
def range (context : CriterionContext) : Expr := .ofPath context.name []

end CriterionContext

/-- A named rule: which entities it applies to, and what it adds for a range of such an entity. -/
structure Criterion where
  name : String
  appliesTo : Entity → Bool
  contribute : CriterionContext → Except QueryError (Option Contribution)

namespace Criterion

/-- The local name of a parameter that two names are joined to; characters that a parameter name
cannot hold become underscores. -/
def localName (criterion attr : String) : String :=
  String.ofList <| (criterion.toList ++ '_' :: attr.toList).map fun c =>
    if c.isAlphanum then c else '_'

end Criterion

end QueryGuard
