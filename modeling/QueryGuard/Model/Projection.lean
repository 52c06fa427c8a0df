import QueryGuard.Model.Basic
import QueryGuard.QueryError
import QueryGuard.Syntax.Parser
/-!
Where the select list of a model shows a path. A path that starts at a join along a path is the
same as the longer path that starts where the join does.
-/

set_option autoImplicit false

namespace QueryGuard

/-- A place in the select list, and whether an aggregate is shown there. -/
structure Projection where
  index : Nat
  aggregate : Bool
deriving DecidableEq, Repr

namespace PathKey

/-- The path with the alias of a join replaced by what the join follows. -/
def through {α : Type} (join : Join α) (key : PathKey) : PathKey :=
  match join.target with
  | .path path =>
      if key.root = join.name.value then ⟨path.root.value, path.attributeNames ++ key.attributes⟩
      else key
  | .entity _ => key

/-- The path with all joins followed, the last one first. -/
def expand {α : Type} (joins : List (Join α)) (key : PathKey) : PathKey := joins.foldr through key

end PathKey

namespace SelectItem

/-- The path that an item shows, itself or through an aggregate. -/
def shown? (item : SelectItem) : Option (Path × Bool) :=
  match item.expr with
  | .path path => some (path, false)
  | .aggregate _ _ (.path path) _ => some (path, true)
  | _ => none

end SelectItem

namespace Model

/-- The first item of the list, from an index on, that shows a path. -/
def findShown (model : Model) (wanted : PathKey) : Nat → List SelectItem → Option Projection
  | _, [] => none
  | index, item :: rest =>
      match item.shown? with
      | some (path, aggregate) =>
          if path.key.expand model.query.joins = wanted then some ⟨index, aggregate⟩
          else model.findShown wanted (index + 1) rest
      | none => model.findShown wanted (index + 1) rest

/-- Where the select list shows a path of the query. -/
def positionOf (model : Model) (path : Path) : Except QueryError (Option Projection) :=
  match model.range? path.root.value with
  | none =>
      throw (.unresolved path.root.value path.dotted (.undeclared path.root.value) path.root.span)
  | some _ =>
      return model.findShown (path.key.expand model.query.joins) 0 model.query.items

/-- Where the select list shows the path that a text writes. -/
def positionOfText (model : Model) (text : String) : Except QueryError (Option Projection) :=
  match Path.parse text with
  | .ok path => model.positionOf path
  | .error error => throw (.syntactic error)

end Model

end QueryGuard
