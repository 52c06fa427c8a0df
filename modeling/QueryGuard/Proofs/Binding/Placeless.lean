import QueryGuard.Proofs.Binding.Performing
import QueryGuard.Proofs.Reading.Placeless
/-!
Places do not matter for whether a query can be looked up, nor for the types that its parameters
get.
-/

set_option autoImplicit false

namespace QueryGuard

def BoundRange.unplaced (range : BoundRange) : BoundRange := { range with span := .synthetic }

namespace Binding

/-- The action without places. -/
def Action.unplaced : Action → Action
  | .require name entity => .require name.unplaced entity.unplaced
  | .follow visible path => .follow visible path.unplaced
  | .expectEntity visible path => .expectEntity visible path.unplaced
  | .note visible parameter path => .note visible parameter.unplaced path.unplaced
  | .declare range => .declare range.unplaced

theorem attributeNames_unplaced (path : Path) : path.unplaced.attributeNames = path.attributeNames := by
  rw [Path.attributeNames, Path.unplaced, List.map_map]
  rfl

/-- Without places a path leads to the same, or to nothing as well. -/
theorem resolve_unplaced (schema : Schema) (visible : Visible) (path : Path) :
    (∃ navigation, resolve schema visible path = .ok navigation ∧
      resolve schema visible path.unplaced = .ok navigation) ∨
    ∃ error error', resolve schema visible path = .error error ∧
      resolve schema visible path.unplaced = .error error' :=
  resolve_congr rfl (attributeNames_unplaced path)

theorem resolve_unplaced_iff {schema : Schema} (visible : Visible) (path : Path)
    (navigation : Navigation) :
    resolve schema visible path.unplaced = .ok navigation ↔
      resolve schema visible path = .ok navigation :=
  resolve_congr_iff (by rfl) (attributeNames_unplaced path) navigation

namespace Action

variable {schema : Schema}

theorem holds_unplaced (action : Action) : action.unplaced.Holds schema ↔ action.Holds schema := by
  cases action with
  | require name entity => exact Iff.rfl
  | follow visible path => exact exists_congr (resolve_unplaced_iff visible path)
  | expectEntity visible path =>
    exact exists_congr fun navigation =>
      and_congr_left' (resolve_unplaced_iff visible path navigation)
  | note visible parameter path => exact exists_congr (resolve_unplaced_iff visible path)
  | declare range => exact Iff.rfl

theorem type?_unplaced (action : Action) : action.unplaced.type? schema = action.type? schema := by
  cases action with
  | note visible parameter path =>
    rw [unplaced, type?, type?]
    rcases resolve_unplaced schema visible path with
      ⟨found, leads, leads'⟩ | ⟨_, _, fails, fails'⟩
    · rw [leads, leads']
      rfl
    · rw [fails, fails']
  | _ => rfl

end Action

theorem typesOf_unplaced (schema : Schema) (actions : List Action) :
    typesOf schema (actions.map Action.unplaced) = typesOf schema actions := by
  rw [typesOf, List.filterMap_map]
  exact List.filterMap_congr fun action _ => action.type?_unplaced

/-! ### Actions of a tree -/

theorem exprActions_unplaced (visible : Visible) (expr : Expr) :
    exprActions visible expr.unplaced = (exprActions visible expr).map Action.unplaced := by
  rw [exprActions, exprActions, Expr.paths_unplaced, List.map_map, List.map_map]
  rfl

theorem compared_unplaced (test : Test) :
    test.unplaced.compared = test.compared.map (Prod.map Expr.unplaced Expr.unplaced) := by
  cases test with
  | inList tested items negated =>
    simp only [Test.unplaced, Test.compared, List.map_map]
    rfl
  | _ => rfl

theorem noteActions_unplaced (visible : Visible) (compared : Expr × Expr) :
    noteActions visible (Prod.map Expr.unplaced Expr.unplaced compared) =
      (noteActions visible compared).map Action.unplaced := by
  obtain ⟨left, right⟩ := compared
  cases left <;> cases right <;> rfl

theorem testActions_unplaced (visible : Visible) (test : Test) :
    testActions visible test.unplaced = (testActions visible test).map Action.unplaced := by
  rw [testActions, testActions, Test.exprs_unplaced, compared_unplaced, List.map_append,
    List.map_flatMap, List.map_flatMap, List.flatMap_map, List.flatMap_map,
    funext (exprActions_unplaced visible), funext (noteActions_unplaced visible)]

section

variable (setting : Setting)

theorem entityOf_unplaced (visible : Visible) (target : JoinTarget) :
    entityOf setting visible target.unplaced = entityOf setting visible target := by
  cases target with
  | entity name => rfl
  | path chain =>
    simp only [JoinTarget.unplaced, entityOf]
    rcases resolve_unplaced setting.schema visible chain with
      ⟨found, leads, leads'⟩ | ⟨_, _, fails, fails'⟩
    · rw [leads, leads']
    · rw [fails, fails']

variable {α : Type}

theorem joinRange_unplaced (visible : Visible) (join : Join α) :
    joinRange setting visible join.unplaced = (joinRange setting visible join).unplaced := by
  rw [joinRange, Join.unplaced, entityOf_unplaced]
  rfl

theorem joinsActions_unplaced (visible : Visible) (joins : List (Join α)) :
    joinsActions setting visible (joins.map Join.unplaced) =
      (joinsActions setting visible joins).map Action.unplaced ∧
    afterJoins setting visible (joins.map Join.unplaced) = afterJoins setting visible joins := by
  induction joins generalizing visible with
  | nil => exact ⟨rfl, rfl⟩
  | cons join rest ih =>
    have range := joinRange_unplaced setting visible join
    have here : joinActions setting visible join.unplaced =
        (joinActions setting visible join).map Action.unplaced := by
      rw [joinActions, range, joinActions, List.map_append]
      refine congrArg (· ++ _) ?_
      rw [Join.unplaced]
      cases join.target <;> rfl
    have extended : visible.extend (joinRange setting visible join).unplaced =
        visible.extend (joinRange setting visible join) := rfl
    obtain ⟨actions, after⟩ := ih (visible.extend (joinRange setting visible join))
    rw [List.map_cons, joinsActions, afterJoins, range, here, extended, actions, after, joinsActions,
      afterJoins, List.map_append]
    exact ⟨rfl, rfl⟩

theorem rangeActions_unplaced (around : Visible) (query : Select α) :
    rangeActions setting around query.unplaced =
      (rangeActions setting around query).map Action.unplaced ∧
    levelVisible setting around query.unplaced = levelVisible setting around query := by
  obtain ⟨actions, after⟩ := joinsActions_unplaced setting
    (around.extend (rootRange setting around query)) query.joins
  exact ⟨congrArg (_ :: _ :: ·) actions, after⟩

/-- The actions with each one made without places. -/
def placelessActions (actions : Visible → List Action) (visible : Visible) : List Action :=
  (actions visible).map Action.unplaced

theorem levelActions_unplaced (query : Select (Visible → List Action)) (around : Visible) :
    levelActions setting (query.map placelessActions).unplaced around =
      (levelActions setting query around).map Action.unplaced := by
  obtain ⟨ranges, level⟩ := rangeActions_unplaced setting around (query.map placelessActions)
  rw [rangeActions_map] at ranges
  rw [levelVisible_map] at level
  rw [levelActions, levelActions, ranges, level]
  generalize levelVisible setting around query = visible
  have optional : ∀ condition : Option (Visible → List Action),
      (condition.map placelessActions).toList.flatMap (· visible) =
        (condition.toList.flatMap (· visible)).map Action.unplaced := by
    intro condition
    cases condition with
    | none => rfl
    | some actions => simp [placelessActions]
  simp only [Select.unplaced, Select.map, Join.unplaced, Join.map, SelectItem.unplaced,
    OrderItem.unplaced, List.map_append, List.map_flatMap, List.flatMap_map, List.map_map,
    Function.comp_apply, exprActions_unplaced, optional]

theorem actionWalk_placeless :
    (actionWalk setting).Placeless placelessActions placelessActions where
  and operands := by
    funext visible
    simp only [actionWalk, placelessActions, List.flatMap_map, List.map_flatMap]
  or operands := by
    funext visible
    simp only [actionWalk, placelessActions, List.flatMap_map, List.map_flatMap]
  not _ := rfl
  group _ := rfl
  test leaf := funext fun visible => testActions_unplaced visible leaf
  inQuery tested query negated := by
    funext visible
    simp only [actionWalk, placelessActions, exprActions_unplaced, List.map_append]
  existsIn _ _ := rfl
  query query := funext fun visible => levelActions_unplaced setting query visible.inside

/-- The actions of a query without places are its actions without places. -/
theorem queryActions_unplaced (query : Query) (around : Visible) :
    queryActions setting query.unplaced around =
      (queryActions setting query around).map Action.unplaced := by
  have conditions : query.map (conditionActions setting ∘ Predicate.unplaced) =
      query.map (placelessActions ∘ conditionActions setting) :=
    Select.map_congr fun condition _ => (actionWalk_placeless setting).fold_predicate condition
  rw [queryActions, Query.unplaced_eq, ← Select.unplaced_map, Select.map_map, conditions,
    ← Select.map_map, levelActions_unplaced]
  rfl

variable {first second : Query}

theorem queryActions_placeless (same : first.unplaced = second.unplaced) (around : Visible) :
    (queryActions setting first around).map Action.unplaced =
      (queryActions setting second around).map Action.unplaced := by
  rw [← queryActions_unplaced, same, queryActions_unplaced]

/-- The types that parameters get are the same in queries that differ in places only. -/
theorem typesOf_placeless (same : first.unplaced = second.unplaced) (around : Visible) :
    typesOf setting.schema (queryActions setting first around) =
      typesOf setting.schema (queryActions setting second around) := by
  rw [← typesOf_unplaced, queryActions_placeless setting same, typesOf_unplaced]

end

end Binding

open Binding in
/-- A query can be looked up if one can that differs in places only, whatever their parameters
are. -/
theorem Model.ofTree_placeless {schema : Schema} {first second : Query} {parameters : ParameterMap}
    {applied : List String} {injected : List (String × String)} {model : Model}
    (same : first.unplaced = second.unplaced)
    (result : ofTree schema first parameters applied injected = .ok model) (others : ParameterMap) :
    ∃ found, ofTree schema second others applied injected = .ok found := by
  obtain ⟨holds, distinct⟩ := ofTree_ok_iff.mp ⟨model, result⟩
  refine ofTree_ok_iff.mpr ⟨fun action member => ?_, ?_⟩
  · have listed := List.mem_map_of_mem (f := Action.unplaced) member
    rw [← queryActions_placeless _ same] at listed
    obtain ⟨other, among, twin⟩ := List.mem_map.mp listed
    rw [← action.holds_unplaced, ← twin]
    exact other.holds_unplaced.mpr (holds other among)
  · rwa [← second.allAliases_unplaced, ← same, first.allAliases_unplaced]

end QueryGuard
