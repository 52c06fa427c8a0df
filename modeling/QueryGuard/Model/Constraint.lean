import QueryGuard.Criterion.Registry
import QueryGuard.Model.Binding
import QueryGuard.Model.Scope
/-!
Adding the conditions of criteria to a query. Conditions for the root and for inner joins go to
the WHERE clause, those for a left join to the join itself.
-/

set_option autoImplicit false

namespace QueryGuard

namespace Constraint

/-- What is fixed while criteria are applied to a model. -/
structure Setting where
  schema : Schema
  criteria : List Criterion
  scope : Scope
  security : SecurityContext
  model : Model

/-- The aliases in use, the criteria by the aliases that they added, and the parameters. -/
structure Progress where
  taken : List String
  injected : List (String × String)
  parameters : ParameterMap

abbrev Constrain := StateT Progress (Except QueryError)

/-- The condition together with further ones, each in parentheses if there are several. -/
def conjoin (condition : Option Predicate) (parts : List Predicate) : Option Predicate :=
  if parts.isEmpty then condition
  else
    match condition.toList ++ parts with
    | [only] => some only
    | several =>
        some <| .and <| several.map fun
          | .group inner => .group inner
          | other => .group other

/-- The query with the parts for its root and for each of its joins. -/
def conjoinLevel (query : Query) (rootParts : List Predicate) (joinParts : List (List Predicate)) :
    Query :=
  let placed := query.joins.zip joinParts
  let innerParts := placed.flatMap fun (join, parts) => if join.kind = .inner then parts else []
  { query with
    joins := placed.map fun (join, parts) =>
      if join.kind = .left then { join with condition := conjoin join.condition parts } else join
    filter := conjoin query.filter (rootParts ++ innerParts) }

/-- The aliases of a level with the ones to be used: those taken are numbered anew, and none of the
new ones is declared at the level. -/
def chooseAliases (taken : List String) (reserved : List String) :
    List String → List (String × String)
  | [] => []
  | name :: rest =>
      if name ∈ taken then
        let fresh := FreshAlias.choose (taken ++ reserved) name
        (name, fresh) :: chooseAliases taken (fresh :: reserved) rest
      else (name, name) :: chooseAliases taken reserved rest

/-- Gives one level of an added query aliases of its own, and leaves the queries inside to the
given step. -/
def freshenLevel (nested : Query → Constrain Query) (criterion : String) (query : Query) :
    Constrain Query := do
  let names := query.aliases.map (·.value)
  let chosen := chooseAliases (← get).taken names names
  let renamed := query.rename (chosen.filter fun (written, used) => written != used)
  modify fun progress => { progress with
    taken := chosen.map (·.2) ++ progress.taken
    injected := chosen.map (fun (_, used) => (used, criterion)) ++ progress.injected }
  renamed.mapSubqueries nested

/-- Gives an added query with at most `depth` levels inside aliases of its own. -/
def freshen (criterion : String) : (depth : Nat) → Query → Constrain Query
  | 0 => freshenLevel (fun query => return query) criterion
  | depth + 1 => freshenLevel (freshen criterion depth) criterion

section

variable (setting : Setting)

/-- Adds a parameter for a criterion. A criterion may add it again with the same value, but nobody
else's name may be used. -/
def supply (criterion name : String) (value : Value) : Constrain Unit := do
  let progress ← get
  match progress.parameters.get? name with
  | some binding =>
      if binding.owner ≠ .criterion criterion ∨ !binding.value.same value then
        throw (.conflict criterion name binding.owner)
  | none =>
      if setting.model.query.markers.any (·.value == name) then
        throw (.conflict criterion name .caller)
      let parameters := progress.parameters.insert name (.of (.criterion criterion) value)
      set { progress with parameters }

/-- What a criterion adds for a range. -/
def part (entity : Entity) (name : String) (criterion : Criterion) :
    Constrain (Option Predicate) := do
  if !criterion.appliesTo entity then return none
  let context : CriterionContext :=
    ⟨name, entity, setting.schema, setting.security, setting.scope.parameterPrefix⟩
  match ← criterion.contribute context with
  | none => return none
  | some contribution =>
      contribution.parameters.forM fun (parameter, value) =>
        supply setting criterion.name parameter value
      return some (← contribution.predicate.mapSubqueries fun query =>
        freshen criterion.name query.nesting query)

/-- What all criteria add for the range of an alias; nothing for ranges that criteria added. -/
def parts (name : String) : Constrain (List Predicate) := do
  match setting.model.range? name with
  | none => return []
  | some range =>
      if range.injectedBy.isSome then return []
      match setting.schema.entity? range.entity with
      | none => throw (.configuration (.missingEntity range.entity))
      | some entity => return (← setting.criteria.mapM (part setting entity name)).filterMap id

/-- Adds to one level what the criteria ask for, and leaves the queries inside to the given
step. -/
def constrainLevel (nested : Query → Constrain Query) (query : Query) : Constrain Query := do
  let rootParts ← parts setting query.root.name.value
  let joinParts ← query.joins.mapM fun join =>
    if setting.scope.joins then parts setting join.name.value else return []
  let query ← if setting.scope.subqueries then query.mapSubqueries nested else pure query
  return conjoinLevel query rootParts joinParts

/-- Applies a step to the queries that the caller wrote. -/
def unlessInjected (step : Query → Constrain Query) (query : Query) : Constrain Query := do
  if (← get).injected.any (·.1 == query.root.name.value) then return query else step query

/-- Adds to a query with at most `depth` levels inside what the criteria ask for. -/
def constrainLevels : (depth : Nat) → Query → Constrain Query
  | 0 => constrainLevel setting fun query => return query
  | depth + 1 => constrainLevel setting (unlessInjected (constrainLevels depth))

end

end Constraint

namespace Model

open Constraint

/-- What is known before criteria are applied to the model. -/
def progress (model : Model) : Progress :=
  ⟨model.aliases,
    model.ranges.filterMap fun range => range.injectedBy.map (range.name, ·),
    model.parameters⟩

/-- The criteria that were not applied to the model yet. -/
def pending (model : Model) (registry : Registry) : List Criterion :=
  registry.criteria.filter fun criterion => !model.isApplied criterion.name

/-- The model with all criteria applied. -/
def constrain (model : Model) (schema : Schema) (registry : Registry) (scope : Scope)
    (security : SecurityContext) : Except QueryError Model := do
  match model.pending registry with
  | [] => return model
  | criteria =>
      let setting : Setting := ⟨schema, criteria, scope, security, model⟩
      let (query, progress) ←
        (constrainLevels setting model.query.nesting model.query).run model.progress
      let applied := criteria.foldl (fun names criterion => insertName criterion.name names)
        model.applied
      ofTree schema query progress.parameters applied progress.injected

end Model

end QueryGuard
