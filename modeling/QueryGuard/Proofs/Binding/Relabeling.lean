import QueryGuard.Proofs.Binding.Performing
import QueryGuard.Proofs.Rewriting.Relabeling
/-!
Looking up a query with other aliases comes to the same, if different aliases stay different and
criteria added the same ranges.
-/

set_option autoImplicit false

namespace QueryGuard

def BoundRange.relabel (f : String → String) (range : BoundRange) : BoundRange :=
  { range with name := f range.name }

namespace Binding

section

variable (f : String → String)

def Visible.relabel (visible : Visible) : Visible :=
  { visible with entities := visible.entities.map fun (name, entity) => (f name, entity) }

/-- The action with other aliases. -/
def Action.relabel : Action → Action
  | .require name entity => .require (name.relabel f) entity
  | .follow visible path => .follow (visible.relabel f) (path.relabel f)
  | .expectEntity visible path => .expectEntity (visible.relabel f) (path.relabel f)
  | .note visible parameter path => .note (visible.relabel f) parameter (path.relabel f)
  | .declare range => .declare (range.relabel f)

end

variable {f : String → String} {schema : Schema}

theorem lookup_relabel {α : Type} (injective : f.Injective) (name : String)
    (pairs : List (String × α)) :
    (pairs.map fun (name, value) => (f name, value)).lookup (f name) = pairs.lookup name := by
  induction pairs with
  | nil => rfl
  | cons pair rest ih =>
    obtain ⟨other, value⟩ := pair
    by_cases same : name = other
    · rw [same, List.map_cons, List.lookup_cons_self, List.lookup_cons_self]
    · have differs : (name == other) = false := beq_false_of_ne same
      have differs' : (f name == f other) = false := beq_false_of_ne fun is => same (injective is)
      simp only [List.map_cons, List.lookup_cons, differs, differs', ih]

/-- With other aliases a path leads to the same, or to nothing as well. -/
theorem resolve_relabel (schema : Schema) (injective : f.Injective) (visible : Visible) (path : Path) :
    (∃ navigation, resolve schema visible path = .ok navigation ∧
      resolve schema (visible.relabel f) (path.relabel f) = .ok navigation) ∨
    ∃ error error', resolve schema visible path = .error error ∧
      resolve schema (visible.relabel f) (path.relabel f) = .error error' :=
  resolve_congr (lookup_relabel injective path.root.value visible.entities) rfl

theorem resolve_relabel_iff (injective : f.Injective) (visible : Visible) (path : Path)
    (navigation : Navigation) :
    resolve schema (visible.relabel f) (path.relabel f) = .ok navigation ↔
      resolve schema visible path = .ok navigation :=
  resolve_congr_iff (lookup_relabel injective path.root.value visible.entities) (by rfl) navigation

namespace Action

theorem holds_relabel (injective : f.Injective) (action : Action) :
    (action.relabel f).Holds schema ↔ action.Holds schema := by
  cases action with
  | require name entity => exact Iff.rfl
  | follow visible path => exact exists_congr (resolve_relabel_iff injective visible path)
  | expectEntity visible path =>
    exact exists_congr fun navigation =>
      and_congr_left' (resolve_relabel_iff injective visible path navigation)
  | note visible parameter path => exact exists_congr (resolve_relabel_iff injective visible path)
  | declare range => exact Iff.rfl

theorem type?_relabel (injective : f.Injective) (action : Action) :
    (action.relabel f).type? schema = action.type? schema := by
  cases action with
  | note visible parameter path =>
    rw [relabel, type?, type?]
    rcases resolve_relabel schema injective visible path with
      ⟨found, leads, leads'⟩ | ⟨_, _, fails, fails'⟩
    · rw [leads, leads']
    · rw [fails, fails']
  | _ => rfl

end Action

theorem typesOf_relabel (injective : f.Injective) (actions : List Action) :
    typesOf schema (actions.map (Action.relabel f)) = typesOf schema actions := by
  rw [typesOf, List.filterMap_map]
  exact List.filterMap_congr fun action _ => action.type?_relabel injective

theorem rangesOf_relabel (actions : List Action) :
    rangesOf (actions.map (Action.relabel f)) = (rangesOf actions).map (BoundRange.relabel f) := by
  rw [rangesOf, rangesOf, List.filterMap_map, List.map_filterMap]
  refine List.filterMap_congr fun action _ => ?_
  cases action <;> rfl

/-! ### Actions of a tree -/

/-- The second setting is the first one with other aliases. -/
structure Setting.Relabels (f : String → String) (first second : Setting) : Prop where
  schema : second.schema = first.schema
  injective : f.Injective
  injected : ∀ name, second.injected.lookup (f name) = first.injected.lookup name

theorem exprActions_relabel (visible : Visible) (expr : Expr) :
    exprActions (visible.relabel f) (expr.mapPaths (Path.relabel f)) =
      (exprActions visible expr).map (Action.relabel f) := by
  rw [exprActions, exprActions, Expr.paths_mapPaths, List.map_map, List.map_map]
  rfl

theorem compared_mapExprs (g : Path → Path) (test : Test) :
    (test.mapExprs (Expr.mapPaths g)).compared =
      test.compared.map (Prod.map (Expr.mapPaths g) (Expr.mapPaths g)) := by
  cases test <;> simp [Test.mapExprs, Test.compared, Expr.mapPaths, Function.comp_def]

theorem noteActions_relabel (visible : Visible) (compared : Expr × Expr) :
    noteActions (visible.relabel f)
        (Prod.map (Expr.mapPaths (Path.relabel f)) (Expr.mapPaths (Path.relabel f)) compared) =
      (noteActions visible compared).map (Action.relabel f) := by
  obtain ⟨left, right⟩ := compared
  cases left <;> cases right <;> rfl

theorem testActions_relabel (visible : Visible) (test : Test) :
    testActions (visible.relabel f) (test.mapExprs (Expr.mapPaths (Path.relabel f))) =
      (testActions visible test).map (Action.relabel f) := by
  rw [testActions, testActions, Test.exprs_mapExprs, compared_mapExprs, List.map_append,
    List.map_flatMap, List.map_flatMap, List.flatMap_map, List.flatMap_map,
    funext (exprActions_relabel visible), funext (noteActions_relabel visible)]

section

variable {first second : Setting}

theorem entityOf_relabel (relabels : Setting.Relabels f first second) (visible : Visible)
    (target : JoinTarget) :
    entityOf second (visible.relabel f) (target.relabel f) = entityOf first visible target := by
  cases target with
  | entity name => rfl
  | path chain =>
    simp only [JoinTarget.relabel, entityOf, relabels.schema]
    rcases resolve_relabel first.schema relabels.injective visible chain with
      ⟨found, leads, leads'⟩ | ⟨_, _, fails, fails'⟩
    · rw [leads, leads']
    · rw [fails, fails']

theorem rangeOf_relabel (relabels : Setting.Relabels f first second) (visible : Visible)
    (name : Name) (entity : String) (role : RangeRole) :
    rangeOf second (visible.relabel f) (name.relabel f) entity role =
      (rangeOf first visible name entity role).relabel f := by
  rw [rangeOf, rangeOf, BoundRange.relabel]
  exact congrArg (BoundRange.mk (f name.value) entity role visible.depth · name.span)
    (relabels.injected name.value)

/-- A join with another alias, and the path that it follows. -/
def relabelJoin {α : Type} (f : String → String) (join : Join α) : Join α :=
  { join with target := join.target.relabel f, name := join.name.relabel f }

theorem joinRange_relabel {α : Type} (relabels : Setting.Relabels f first second)
    (visible : Visible) (join : Join α) :
    joinRange second (visible.relabel f) (relabelJoin f join) =
      (joinRange first visible join).relabel f := by
  rw [joinRange, relabelJoin, entityOf_relabel relabels, rangeOf_relabel relabels]
  rfl

theorem joinsActions_relabel {α : Type} (relabels : Setting.Relabels f first second)
    (visible : Visible) (joins : List (Join α)) :
    joinsActions second (visible.relabel f) (joins.map (relabelJoin f)) =
      (joinsActions first visible joins).map (Action.relabel f) ∧
    afterJoins second (visible.relabel f) (joins.map (relabelJoin f)) =
      (afterJoins first visible joins).relabel f := by
  induction joins generalizing visible with
  | nil => exact ⟨rfl, rfl⟩
  | cons join rest ih =>
    have range := joinRange_relabel relabels visible join
    have here : joinActions second (visible.relabel f) (relabelJoin f join) =
        (joinActions first visible join).map (Action.relabel f) := by
      rw [joinActions, range, joinActions, List.map_append]
      refine congrArg (· ++ _) ?_
      rw [relabelJoin]
      cases join.target <;> rfl
    have extended : (visible.relabel f).extend ((joinRange first visible join).relabel f) =
        (visible.extend (joinRange first visible join)).relabel f := rfl
    obtain ⟨actions, after⟩ := ih (visible.extend (joinRange first visible join))
    rw [List.map_cons, joinsActions, afterJoins, range, here, extended, actions, after, joinsActions,
      afterJoins, List.map_append]
    exact ⟨rfl, rfl⟩

theorem rangeActions_relabel {α : Type} (relabels : Setting.Relabels f first second)
    (around : Visible) (query : Select α) :
    rangeActions second (around.relabel f) (query.relabel f) =
      (rangeActions first around query).map (Action.relabel f) ∧
    levelVisible second (around.relabel f) (query.relabel f) =
      (levelVisible first around query).relabel f := by
  have range : rootRange second (around.relabel f) (query.relabel f) =
      (rootRange first around query).relabel f := rangeOf_relabel relabels around _ _ _
  have extended : (around.relabel f).extend ((rootRange first around query).relabel f) =
      (around.extend (rootRange first around query)).relabel f := rfl
  have joins : (query.relabel f).joins = query.joins.map (relabelJoin f) := rfl
  obtain ⟨actions, after⟩ := joinsActions_relabel relabels
    (around.extend (rootRange first around query)) query.joins
  rw [rangeActions, levelVisible, range, extended, joins, actions, after]
  exact ⟨rfl, rfl⟩

/-- The actions of a query with other aliases, if it is so for its conditions. -/
theorem queryActions_relabel_of (relabels : Setting.Relabels f first second) {query : Query}
    (each : ∀ condition ∈ query.conditions, ∀ visible : Visible,
      conditionActions second (condition.relabel f) (visible.relabel f) =
        (conditionActions first condition visible).map (Action.relabel f)) (around : Visible) :
    queryActions second (query.relabel f) (around.relabel f) =
      (queryActions first query around).map (Action.relabel f) := by
  obtain ⟨ranges, level⟩ :=
    rangeActions_relabel relabels around (query.map (Predicate.relabel f))
  rw [rangeActions_map] at ranges
  rw [levelVisible_map] at level
  rw [Query.relabel_eq, queryActions_eq, queryActions_eq, ranges, level]
  generalize levelVisible first around query = visible
  have optional : ∀ condition : Option Predicate, (∀ inner ∈ condition, inner ∈ query.conditions) →
      (condition.map (Predicate.relabel f)).toList.flatMap
          (conditionActions second · (visible.relabel f)) =
        (condition.toList.flatMap (conditionActions first · visible)).map (Action.relabel f) := by
    intro condition among
    cases condition with
    | none => rfl
    | some inner =>
      rw [Option.map_some, Option.toList_some, Option.toList_some, List.flatMap_singleton,
        List.flatMap_singleton, each inner (among inner rfl)]
  have joins : query.joins.flatMap (fun join => (join.condition.map (Predicate.relabel f)).toList.flatMap
        (conditionActions second · (visible.relabel f))) =
      query.joins.flatMap fun join =>
        (join.condition.toList.flatMap (conditionActions first · visible)).map (Action.relabel f) := by
    exact List.flatMap_congr fun join member =>
      optional join.condition fun _ => Select.mem_of_join member
  simp only [Select.relabel, Select.map, List.map_append, List.map_flatMap, List.flatMap_map,
    List.map_map, exprActions_relabel, Function.comp_def, Join.map, joins,
    optional query.filter fun _ => Select.mem_of_filter,
    optional query.having fun _ => Select.mem_of_having]

theorem conditionActions_relabel (relabels : Setting.Relabels f first second)
    (condition : Predicate) (visible : Visible) :
    conditionActions second (condition.relabel f) (visible.relabel f) =
      (conditionActions first condition visible).map (Action.relabel f) := by
  have all : ∀ (visible : Visible) (operands : List Predicate), (∀ operand ∈ operands,
      conditionActions second (operand.relabel f) (visible.relabel f) =
        (conditionActions first operand visible).map (Action.relabel f)) →
      (operands.map (Predicate.relabel f)).flatMap
          (conditionActions second · (visible.relabel f)) =
        (operands.flatMap (conditionActions first · visible)).map (Action.relabel f) := by
    intro visible operands each
    rw [List.flatMap_map, List.map_flatMap]
    exact List.flatMap_congr each
  have inside : ∀ visible : Visible,
      (visible.relabel f).inside = visible.inside.relabel f := fun _ => rfl
  induction condition using Predicate.induction generalizing visible with
  | and operands ih =>
    rw [Predicate.relabel_and, conditionActions_and, conditionActions_and]
    exact all visible operands fun operand member => ih operand member visible
  | or operands ih =>
    rw [Predicate.relabel_or, conditionActions_or, conditionActions_or]
    exact all visible operands fun operand member => ih operand member visible
  | not operand ih => exact ih visible
  | group operand ih => exact ih visible
  | test test => exact testActions_relabel visible test
  | inQuery tested query negated ih =>
    rw [Predicate.relabel_inQuery, conditionActions_inQuery, conditionActions_inQuery,
      exprActions_relabel, inside, queryActions_relabel_of relabels ih, List.map_append]
  | existsIn query negated ih =>
    rw [Predicate.relabel_existsIn, conditionActions_existsIn, conditionActions_existsIn, inside,
      queryActions_relabel_of relabels ih]

/-- The actions of a query with other aliases are those of the query, with the other aliases. -/
theorem queryActions_relabel (relabels : Setting.Relabels f first second) (query : Query)
    (around : Visible) :
    queryActions second (query.relabel f) (around.relabel f) =
      (queryActions first query around).map (Action.relabel f) :=
  queryActions_relabel_of relabels (fun condition _ => conditionActions_relabel relabels condition)
    around

end

end Binding

end QueryGuard
