/-!
Where criteria are applied.
-/

set_option autoImplicit false

namespace QueryGuard

/-- How criteria are applied: what the names of their parameters start with, and to which ranges
besides the roots. -/
structure Scope where
  parameterPrefix : String
  joins : Bool
  subqueries : Bool
deriving DecidableEq, Repr

def Scope.defaultPrefix : String := "criterion_"

/-- Criteria are applied everywhere unless stated otherwise. -/
def Scope.standard : Scope := ⟨defaultPrefix, true, true⟩

end QueryGuard
