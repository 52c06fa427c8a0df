import QueryGuard.Model.Basic
import QueryGuard.Model.Siblings
import QueryGuard.QueryError
/-!
Looking up the names of a query in a catalog. An alias is visible at its own level and in the
queries inside; it may be declared once only.
-/

set_option autoImplicit false

namespace QueryGuard

namespace Binding

/-- What has been found so far. -/
structure Found where
  ranges : List BoundRange
  navigations : List (PathKey × Navigation)
  types : List (String × ScalarType)

abbrev Bind := StateT Found (Except QueryError)

/-- What is fixed for the whole query: the catalog, and the criteria that added ranges. -/
structure Setting where
  schema : Schema
  injected : List (String × String)

/-- The entities of the visible aliases, the innermost first, and the depth of the level. -/
structure Visible where
  entities : List (String × String)
  depth : Nat

/-- The error of a path. -/
def unresolved (path : Path) (reason : Unresolved) : QueryError :=
  .unresolved path.root.value path.dotted reason path.span

/-- What a path leads to from the visible aliases. -/
def resolve (schema : Schema) (visible : Visible) (path : Path) : Except QueryError Navigation :=
  match visible.entities.lookup path.root.value with
  | none => throw (unresolved path (.outOfScope path.root.value))
  | some entity =>
      match schema.navigate entity path.attributeNames with
      | .ok navigation => return navigation
      | .error error => throw (unresolved path (.navigation error))

/-- Keeps what a path leads to. -/
def record (key : PathKey) (navigation : Navigation) : Bind Unit :=
  modify fun found =>
    if found.navigations.any (·.1 = key) then found
    else { found with navigations := found.navigations ++ [(key, navigation)] }

section

variable (setting : Setting)

/-- Looks up a path. -/
def bindPath (visible : Visible) (path : Path) : Bind Navigation := do
  let navigation ← resolve setting.schema visible path
  record path.key navigation
  return navigation

/-- Looks up all paths of an expression. -/
def bindExpr (visible : Visible) (expr : Expr) : Bind Unit :=
  expr.paths.forM fun path => do
    let _ ← bindPath setting visible path

/-- Notes the type of a parameter that is compared with a path. -/
def noteType (visible : Visible) (compared : Expr × Expr) : Bind Unit := do
  match compared with
  | (.parameter name, .path path) =>
      let navigation ← resolve setting.schema visible path
      if let some type := navigation.scalarType? then
        modify fun found => { found with types := found.types ++ [(name.value, type)] }
  | _ => return

def bindTest (visible : Visible) (test : Test) : Bind Unit := do
  test.exprs.forM (bindExpr setting visible)
  test.compared.forM (noteType setting visible)

/-- Adds a range; its alias is not in use anywhere. -/
def declare (visible : Visible) (name : Name) (entity : String) (role : RangeRole) :
    Bind Visible := do
  let found ← get
  if found.ranges.any (·.name = name.value) then throw (.aliasCollision name.value name.span)
  let range : BoundRange :=
    { name := name.value, entity, role, depth := visible.depth
      injectedBy := setting.injected.lookup name.value, span := name.span }
  set { found with ranges := found.ranges ++ [range] }
  return { visible with entities := (name.value, entity) :: visible.entities }

/-- Checks that an alias stands for a known entity. -/
def requireEntity (name entity : Name) : Bind Unit := do
  if !setting.schema.contains entity.value then
    throw (.unresolved name.value "" (.unknownEntity entity.value) entity.span)

/-- The entity that a join leads to. -/
def joinedEntity {α : Type} (visible : Visible) (join : Join α) : Bind String := do
  match join.target with
  | .path path =>
      let navigation ← bindPath setting visible path
      match navigation.entity? with
      | some entity => return entity
      | none => throw (unresolved path .scalarJoin)
  | .entity entity =>
      requireEntity setting join.name entity
      return entity.value

/-- Adds the range of a join, which may start at earlier ranges. -/
def declareJoin {α : Type} (visible : Visible) (join : Join α) : Bind Visible := do
  let entity ← joinedEntity setting visible join
  declare setting visible join.name entity (.joined join.kind)

/-- Looks up one level inside the visible aliases around it, given how its conditions are. -/
def bindLevel (query : Select (Visible → Bind Unit)) (around : Visible) : Bind Unit := do
  requireEntity setting query.root.name query.root.entity
  let visible ← declare setting around query.root.name query.root.entity.value .root
  let visible ← query.joins.foldlM (declareJoin setting) visible
  query.items.forM (bindExpr setting visible ·.expr)
  query.joins.forM fun join => join.condition.forM (· visible)
  query.filter.forM (· visible)
  query.groupBy.forM (bindExpr setting visible)
  query.having.forM (· visible)
  query.orderBy.forM (bindExpr setting visible ·.expr)

/-- The walk that looks up names; a query inside a condition is one level deeper. -/
def walk : PredicateFold (Visible → Bind Unit) (Visible → Bind Unit) where
  and := fun operands visible => operands.forM (· visible)
  or := fun operands visible => operands.forM (· visible)
  not := id
  group := id
  test := fun leaf visible => bindTest setting visible leaf
  inQuery := fun tested query _ visible => do
    bindExpr setting visible tested
    query visible
  existsIn := fun query _ => query
  query := fun query around => bindLevel setting query { around with depth := around.depth + 1 }

/-- Looks up a whole query. -/
def bindQuery (query : Query) : Bind Unit :=
  bindLevel setting (query.map (Predicate.fold (walk setting))) ⟨[], 0⟩

end

end Binding

namespace Model

/-- The model of a tree as it is, with the criteria that were applied to it and the aliases that
they added. -/
def ofTree (schema : Schema) (query : Query) (parameters : ParameterMap) (applied : List String)
    (injected : List (String × String)) : Except QueryError Model := do
  let ((), found) ← (Binding.bindQuery ⟨schema, injected⟩ query).run ⟨[], [], []⟩
  let parameters := found.types.foldl (fun parameters (name, type) => parameters.setType name type)
    parameters
  return ⟨query, found.ranges, found.navigations, parameters, applied⟩

/-- The model of a query with the caller's parameters. -/
def bind (schema : Schema) (query : Query) (parameters : ParameterMap) :
    Except QueryError Model :=
  ofTree schema query.separateSiblings parameters [] []

end Model

end QueryGuard
