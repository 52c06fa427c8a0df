import QueryGuard.Catalog.Navigation
import QueryGuard.Parameter.Map
import QueryGuard.Syntax.Tree
/-!
Queries whose names have been looked up in a catalog.
-/

set_option autoImplicit false

namespace QueryGuard

/-- How a range comes into its query. -/
inductive RangeRole where
  | root
  | joined (kind : JoinKind)
deriving DecidableEq, Repr

/-- A range with its alias and its entity. The outermost query has depth 0, queries inside it have
depth 1, and so on. -/
structure BoundRange where
  name : String
  entity : String
  role : RangeRole
  depth : Nat
  /-- The criterion that added the range, if one did. -/
  injectedBy : Option String
  span : Span
deriving DecidableEq, Repr

/-- What tells the paths of a query apart: the alias they start at and their attributes. -/
structure PathKey where
  root : String
  attributes : List String
deriving DecidableEq, Repr

def Path.key (path : Path) : PathKey := ⟨path.root.value, path.attributeNames⟩

/-- A query with its ranges, what its paths lead to, its parameters, and the names of the criteria
that were applied to it. -/
structure Model where
  query : Query
  ranges : List BoundRange
  navigations : List (PathKey × Navigation)
  parameters : ParameterMap
  applied : List String

namespace Model

/-- The range of an alias. -/
def range? (model : Model) (name : String) : Option BoundRange :=
  model.ranges.find? (·.name == name)

/-- What a path of the query leads to. -/
def navigation? (model : Model) (path : Path) : Option Navigation :=
  model.navigations.lookup path.key

def isApplied (model : Model) (criterion : String) : Bool := model.applied.contains criterion

/-- The aliases of all ranges. -/
def aliases (model : Model) : List String := model.ranges.map (·.name)

/-- Puts a name among names in increasing order, if it is new. -/
def insertName (name : String) : List String → List String
  | [] => [name]
  | other :: rest =>
      if name = other then other :: rest
      else if name < other then name :: other :: rest
      else other :: insertName name rest

end Model

end QueryGuard
