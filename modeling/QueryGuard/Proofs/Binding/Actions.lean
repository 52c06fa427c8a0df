import QueryGuard.Model.Binding
import QueryGuard.Proofs.Trees
/-!
Looking up a query is performing a list of actions, one after the other, which the tree and the
catalog alone determine.
-/

set_option autoImplicit false

namespace QueryGuard

namespace Binding

/-- What is done for a query: an entity has to be known, a path is followed from the visible aliases
and what it leads to is kept, a path has to lead to an entity, the type of a parameter is noted that
is compared with a path, or a range is added. -/
inductive Action where
  | require (name entity : Name)
  | follow (visible : Visible) (path : Path)
  | expectEntity (visible : Visible) (path : Path)
  | note (visible : Visible) (parameter : Name) (path : Path)
  | declare (range : BoundRange)

/-- The range that an action adds. -/
def Action.range? : Action → Option BoundRange
  | .declare range => some range
  | _ => none

section

variable (setting : Setting)

def perform : Action → Bind Unit
  | .require name entity => requireEntity setting name entity
  | .follow visible path => do
      let _ ← bindPath setting visible path
  | .expectEntity visible path => do
      let navigation ← resolve setting.schema visible path
      if navigation.entity?.isNone then throw (unresolved path .scalarJoin)
  | .note visible parameter path => noteType setting visible (.parameter parameter, .path path)
  | .declare range => do
      let found ← get
      if found.ranges.any (·.name = range.name) then throw (.aliasCollision range.name range.span)
      set { found with ranges := found.ranges ++ [range] }

def performAll (actions : List Action) : Bind Unit := actions.forM (perform setting)

/-! ### The actions of a tree -/

/-- The aliases that are visible behind a range. -/
def Visible.extend (visible : Visible) (range : BoundRange) : Visible :=
  { visible with entities := (range.name, range.entity) :: visible.entities }

/-- The aliases that are visible around a query inside a condition. -/
def Visible.inside (visible : Visible) : Visible := { visible with depth := visible.depth + 1 }

def rangeOf (visible : Visible) (name : Name) (entity : String) (role : RangeRole) : BoundRange :=
  { name := name.value, entity, role, depth := visible.depth
    injectedBy := setting.injected.lookup name.value, span := name.span }

def rootRange {α : Type} (around : Visible) (query : Select α) : BoundRange :=
  rangeOf setting around query.root.name query.root.entity.value .root

/-- The entity that is joined; no entity if the path does not lead to one. -/
def entityOf (visible : Visible) : JoinTarget → String
  | .path path =>
      match resolve setting.schema visible path with
      | .ok navigation => navigation.entity?.getD ""
      | .error _ => ""
  | .entity entity => entity.value

def joinRange {α : Type} (visible : Visible) (join : Join α) : BoundRange :=
  rangeOf setting visible join.name (entityOf setting visible join.target) (.joined join.kind)

def targetActions (visible : Visible) (name : Name) : JoinTarget → List Action
  | .path path => [.follow visible path, .expectEntity visible path]
  | .entity entity => [.require name entity]

def joinActions {α : Type} (visible : Visible) (join : Join α) : List Action :=
  targetActions visible join.name join.target ++ [.declare (joinRange setting visible join)]

/-- The actions of joins; each of them sees the ranges of those before it. -/
def joinsActions {α : Type} : Visible → List (Join α) → List Action
  | _, [] => []
  | visible, join :: rest =>
      joinActions setting visible join ++
        joinsActions (visible.extend (joinRange setting visible join)) rest

/-- The aliases that are visible behind joins. -/
def afterJoins {α : Type} : Visible → List (Join α) → Visible
  | visible, [] => visible
  | visible, join :: rest => afterJoins (visible.extend (joinRange setting visible join)) rest

/-- The aliases that are visible at a level. -/
def levelVisible {α : Type} (around : Visible) (query : Select α) : Visible :=
  afterJoins setting (around.extend (rootRange setting around query)) query.joins

/-- The actions for the ranges of a level. -/
def rangeActions {α : Type} (around : Visible) (query : Select α) : List Action :=
  .require query.root.name query.root.entity :: .declare (rootRange setting around query) ::
    joinsActions setting (around.extend (rootRange setting around query)) query.joins

end

def exprActions (visible : Visible) (expr : Expr) : List Action :=
  expr.paths.map (.follow visible)

def noteActions (visible : Visible) : Expr × Expr → List Action
  | (.parameter name, .path path) => [.note visible name path]
  | _ => []

def testActions (visible : Visible) (test : Test) : List Action :=
  test.exprs.flatMap (exprActions visible) ++ test.compared.flatMap (noteActions visible)

section

variable (setting : Setting)

/-- The actions of a level, given those of its conditions. -/
def levelActions (query : Select (Visible → List Action)) (around : Visible) : List Action :=
  let visible := levelVisible setting around query
  rangeActions setting around query ++
    query.items.flatMap (exprActions visible ·.expr) ++
    query.joins.flatMap (fun join => join.condition.toList.flatMap (· visible)) ++
    query.filter.toList.flatMap (· visible) ++
    query.groupBy.flatMap (exprActions visible) ++
    query.having.toList.flatMap (· visible) ++
    query.orderBy.flatMap (exprActions visible ·.expr)

/-- The walk that lists actions. -/
def actionWalk : PredicateFold (Visible → List Action) (Visible → List Action) where
  and := fun operands visible => operands.flatMap (· visible)
  or := fun operands visible => operands.flatMap (· visible)
  not := id
  group := id
  test := fun leaf visible => testActions visible leaf
  inQuery := fun tested query _ visible => exprActions visible tested ++ query visible
  existsIn := fun query _ => query
  query := fun query visible => levelActions setting query visible.inside

/-- The actions of a condition. -/
def conditionActions (condition : Predicate) : Visible → List Action :=
  condition.fold (actionWalk setting)

/-- The actions of a query. -/
def queryActions (query : Query) (around : Visible) : List Action :=
  levelActions setting (query.map (conditionActions setting)) around

end

section

variable {setting : Setting}

/-! ### Equations -/

theorem joinsActions_map {α β : Type} (f : α → β) (visible : Visible) (joins : List (Join α)) :
    joinsActions setting visible (joins.map (·.map f)) = joinsActions setting visible joins := by
  induction joins generalizing visible with
  | nil => rfl
  | cons join rest ih =>
    rw [List.map_cons, joinsActions, joinsActions, ih]
    rfl

theorem afterJoins_map {α β : Type} (f : α → β) (visible : Visible) (joins : List (Join α)) :
    afterJoins setting visible (joins.map (·.map f)) = afterJoins setting visible joins := by
  induction joins generalizing visible with
  | nil => rfl
  | cons join rest ih =>
    rw [List.map_cons, afterJoins, afterJoins, ih]
    rfl

theorem levelVisible_map {α β : Type} (f : α → β) (around : Visible) (query : Select α) :
    levelVisible setting around (query.map f) = levelVisible setting around query :=
  afterJoins_map f _ query.joins

theorem rangeActions_map {α β : Type} (f : α → β) (around : Visible) (query : Select α) :
    rangeActions setting around (query.map f) = rangeActions setting around query :=
  congrArg (_ :: _ :: ·) (joinsActions_map f _ query.joins)

/-- Only the ranges of a level matter for what its conditions see. -/
theorem queryActions_eq (query : Query) (around : Visible) :
    queryActions setting query around =
      rangeActions setting around query ++
        query.items.flatMap (exprActions (levelVisible setting around query) ·.expr) ++
        query.joins.flatMap (fun join => join.condition.toList.flatMap
          (conditionActions setting · (levelVisible setting around query))) ++
        query.filter.toList.flatMap
          (conditionActions setting · (levelVisible setting around query)) ++
        query.groupBy.flatMap (exprActions (levelVisible setting around query)) ++
        query.having.toList.flatMap
          (conditionActions setting · (levelVisible setting around query)) ++
        query.orderBy.flatMap (exprActions (levelVisible setting around query) ·.expr) := by
  have optional : ∀ (visible : Visible) (condition : Option Predicate),
      (condition.map (conditionActions setting)).toList.flatMap (· visible) =
        condition.toList.flatMap (conditionActions setting · visible) := by
    intro visible condition
    cases condition <;> rfl
  rw [queryActions, levelActions, levelVisible_map, rangeActions_map]
  simp only [Select.map, List.flatMap_map, Join.map, optional]

theorem fold_actionWalk (query : Query) (visible : Visible) :
    query.fold (actionWalk setting) visible = queryActions setting query visible.inside := by
  rw [Query.fold_eq]
  rfl

theorem conditionActions_and (operands : List Predicate) (visible : Visible) :
    conditionActions setting (.and operands) visible =
      operands.flatMap (conditionActions setting · visible) := by
  rw [conditionActions, Predicate.fold_and]
  exact List.flatMap_map _ _ _

theorem conditionActions_or (operands : List Predicate) (visible : Visible) :
    conditionActions setting (.or operands) visible =
      operands.flatMap (conditionActions setting · visible) := by
  rw [conditionActions, Predicate.fold_or]
  exact List.flatMap_map _ _ _

theorem conditionActions_inQuery (tested : Expr) (query : Query) (negated : Bool)
    (visible : Visible) :
    conditionActions setting (.inQuery tested query negated) visible =
      exprActions visible tested ++ queryActions setting query visible.inside := by
  rw [← fold_actionWalk]
  rfl

theorem conditionActions_existsIn (query : Query) (negated : Bool) (visible : Visible) :
    conditionActions setting (.existsIn query negated) visible =
      queryActions setting query visible.inside := by
  rw [← fold_actionWalk]
  rfl

end

/-! ### Performing them -/

section

variable {setting : Setting}

theorem performAll_append (first rest : List Action) :
    performAll setting (first ++ rest) =
      performAll setting first >>= fun _ => performAll setting rest :=
  List.forM_append

theorem performAll_cons (action : Action) (rest : List Action) :
    performAll setting (action :: rest) =
      perform setting action >>= fun _ => performAll setting rest := rfl

theorem performAll_singleton (action : Action) :
    performAll setting [action] = perform setting action :=
  bind_pure_unit

theorem performAll_flatMap {α : Type} (items : List α) (actions : α → List Action) :
    performAll setting (items.flatMap actions) =
      items.forM fun item => performAll setting (actions item) := by
  induction items with
  | nil => rfl
  | cons first rest ih =>
    rw [List.flatMap_cons, performAll_append, ih]
    rfl

theorem performAll_map {α : Type} (items : List α) (action : α → Action) :
    performAll setting (items.map action) = items.forM fun item => perform setting (action item) := by
  induction items with
  | nil => rfl
  | cons first rest ih =>
    rw [List.map_cons, performAll_cons, ih]
    rfl

theorem bindExpr_eq (visible : Visible) (expr : Expr) :
    bindExpr setting visible expr = performAll setting (exprActions visible expr) := by
  rw [exprActions, performAll_map]
  rfl

theorem bindExprs_eq {α : Type} (visible : Visible) (items : List α) (expr : α → Expr) :
    (items.forM fun item => bindExpr setting visible (expr item)) =
      performAll setting (items.flatMap fun item => exprActions visible (expr item)) := by
  rw [performAll_flatMap]
  exact congrArg (items.forM ·) (funext fun item => bindExpr_eq visible (expr item))

theorem noteType_eq (visible : Visible) (compared : Expr × Expr) :
    noteType setting visible compared = performAll setting (noteActions visible compared) := by
  unfold noteActions
  split
  · rw [performAll_singleton]
    rfl
  · rename_i other
    unfold noteType
    split
    · exact absurd rfl (other _ _)
    · rfl

theorem bindTest_eq (visible : Visible) (test : Test) :
    bindTest setting visible test = performAll setting (testActions visible test) := by
  rw [testActions, performAll_append, performAll_flatMap, performAll_flatMap, bindTest,
    funext (bindExpr_eq visible), funext (noteType_eq visible)]

theorem perform_declare_taken {range : BoundRange} {found : Found}
    (taken : found.ranges.any (·.name = range.name)) :
    (perform setting (.declare range)).run found =
      .error (.aliasCollision range.name range.span) := by
  rw [perform, StateT.run_bind, StateT.run_get, pure_bind]
  dsimp only
  rw [if_pos taken]
  rfl

theorem perform_declare_new {range : BoundRange} {found : Found}
    (new : ¬ found.ranges.any (·.name = range.name)) :
    (perform setting (.declare range)).run found =
      .ok ((), { found with ranges := found.ranges ++ [range] }) := by
  rw [perform, StateT.run_bind, StateT.run_get, pure_bind]
  dsimp only
  rw [if_neg new]
  rfl

theorem declare_eq (visible : Visible) (name : Name) (entity : String) (role : RangeRole) :
    declare setting visible name entity role =
      perform setting (.declare (rangeOf setting visible name entity role)) >>= fun _ =>
        return visible.extend (rangeOf setting visible name entity role) := by
  apply StateT.ext
  intro found
  rw [StateT.run_bind, declare, StateT.run_bind, StateT.run_get, pure_bind]
  dsimp only
  by_cases taken : found.ranges.any (·.name = name.value)
  · rw [if_pos taken, perform_declare_taken taken]
    rfl
  · rw [if_neg taken, perform_declare_new taken]
    rfl

/-- What is known when a path has been followed. -/
def Found.keep (found : Found) (key : PathKey) (navigation : Navigation) : Found :=
  if found.navigations.any (·.1 = key) then found
  else { found with navigations := found.navigations ++ [(key, navigation)] }

theorem bindPath_ok {visible : Visible} {path : Path} {navigation : Navigation}
    (leads : resolve setting.schema visible path = .ok navigation) (found : Found) :
    (bindPath setting visible path).run found = .ok (navigation, found.keep path.key navigation) := by
  rw [bindPath, leads]
  rfl

theorem bindPath_error {visible : Visible} {path : Path} {error : QueryError}
    (fails : resolve setting.schema visible path = .error error) (found : Found) :
    (bindPath setting visible path).run found = .error error := by
  rw [bindPath, fails]
  rfl

theorem ok_bind {ε α β : Type} (value : α) (next : α → Except ε β) :
    (Except.ok value >>= next) = next value := rfl

theorem perform_expectEntity_run {visible : Visible} {path : Path} {navigation : Navigation}
    (leads : resolve setting.schema visible path = .ok navigation) (found : Found) :
    (perform setting (.expectEntity visible path)).run found =
      if navigation.entity?.isNone then .error (unresolved path .scalarJoin) else .ok ((), found) := by
  rw [perform, leads]
  split
  · rename_i none
    exact congrArg (fun step : Bind Unit => step.run found) (if_pos none)
  · rename_i some
    exact congrArg (fun step : Bind Unit => step.run found) (if_neg some)

/-- The type of the attribute that a path leads to is noted. -/
theorem perform_note_run {visible : Visible} {parameter : Name} {path : Path}
    {navigation : Navigation} (leads : resolve setting.schema visible path = .ok navigation)
    (found : Found) :
    (perform setting (.note visible parameter path)).run found =
      .ok ((), { found with
        types := found.types ++ navigation.scalarType?.toList.map (parameter.value, ·) }) := by
  have here : (liftM (Except.ok navigation : Except QueryError Navigation) : Bind Navigation).run
      found = .ok (navigation, found) := rfl
  rw [perform, noteType, leads, StateT.run_bind, here, ok_bind]
  dsimp only
  cases navigation.scalarType? with
  | none =>
    rw [Option.toList_none, List.map_nil, List.append_nil]
    rfl
  | some type => rfl

theorem joinedEntity_eq {α : Type} (visible : Visible) (join : Join α) :
    joinedEntity setting visible join =
      performAll setting (targetActions visible join.name join.target) >>= fun _ =>
        return entityOf setting visible join.target := by
  unfold joinedEntity
  cases join.target with
  | entity entity =>
    rw [targetActions, performAll_singleton]
    rfl
  | path path =>
    rw [targetActions, performAll_cons, performAll_singleton]
    apply StateT.ext
    intro found
    have follow : perform setting (.follow visible path) = bindPath setting visible path >>= fun _ =>
        return () := rfl
    simp only [follow, entityOf, bind_assoc, pure_bind, StateT.run_bind]
    cases leads : resolve setting.schema visible path with
    | error error =>
      rw [bindPath_error leads]
      rfl
    | ok navigation =>
      rw [bindPath_ok leads, ok_bind, ok_bind, perform_expectEntity_run leads]
      dsimp only
      cases navigation.entity? with
      | none => rfl
      | some entity => rfl

theorem declareJoin_eq {α : Type} (visible : Visible) (join : Join α) :
    declareJoin setting visible join =
      performAll setting (joinActions setting visible join) >>= fun _ =>
        return visible.extend (joinRange setting visible join) := by
  rw [declareJoin, joinedEntity_eq, joinActions, performAll_append, performAll_singleton]
  simp only [bind_assoc, pure_bind, declare_eq]
  rfl

theorem foldlM_declareJoin_eq {α : Type} (visible : Visible) (joins : List (Join α)) :
    joins.foldlM (declareJoin setting) visible =
      performAll setting (joinsActions setting visible joins) >>= fun _ =>
        return afterJoins setting visible joins := by
  induction joins generalizing visible with
  | nil => rfl
  | cons join rest ih =>
    rw [List.foldlM_cons, declareJoin_eq, joinsActions, performAll_append]
    simp only [bind_assoc, pure_bind, ih]
    rfl

/-- Looking up the ranges of a level is performing their actions. -/
theorem bindRanges_eq {α β : Type} (around : Visible) (query : Select α) (next : Visible → Bind β) :
    (do
      requireEntity setting query.root.name query.root.entity
      let visible ← declare setting around query.root.name query.root.entity.value .root
      let visible ← query.joins.foldlM (declareJoin setting) visible
      next visible) =
      performAll setting (rangeActions setting around query) >>= fun _ =>
        next (levelVisible setting around query) := by
  simp only [rangeActions, performAll_cons, declare_eq, foldlM_declareJoin_eq, bind_assoc, pure_bind]
  rfl

/-- Looking up a level is performing its actions, if it is so for its conditions. -/
theorem bindLevel_eq {query : Query}
    (each : ∀ condition ∈ query.conditions, ∀ visible,
      condition.fold (walk setting) visible =
        performAll setting (conditionActions setting condition visible))
    (around : Visible) :
    bindLevel setting (query.map (Predicate.fold (walk setting))) around =
      performAll setting (queryActions setting query around) := by
  have optional : ∀ (visible : Visible) (condition : Option Predicate),
      (∀ inner ∈ condition, inner ∈ query.conditions) →
      (condition.map (Predicate.fold (walk setting))).forM (· visible) =
        performAll setting (condition.toList.flatMap (conditionActions setting · visible)) := by
    intro visible condition among
    cases condition with
    | none => rfl
    | some inner =>
      rw [Option.toList_some, List.flatMap_singleton]
      exact each inner (among inner rfl) visible
  have joined : ∀ visible : Visible,
      (query.joins.map (·.map (Predicate.fold (walk setting)))).forM
          (fun join => join.condition.forM (· visible)) =
        performAll setting (query.joins.flatMap fun join =>
          join.condition.toList.flatMap (conditionActions setting · visible)) := by
    intro visible
    have among : ∀ join ∈ query.joins, ∀ inner ∈ join.condition, inner ∈ query.conditions :=
      fun join member inner => Select.mem_of_join member
    revert among
    generalize query.joins = joins
    intro among
    induction joins with
    | nil => rfl
    | cons join rest ih =>
      rw [List.flatMap_cons, performAll_append, ← optional visible join.condition
        (among join List.mem_cons_self), ← ih fun other member =>
        among other (List.mem_cons_of_mem _ member)]
      rfl
  rw [bindLevel, bindRanges_eq, queryActions_eq, rangeActions_map, levelVisible_map]
  generalize levelVisible setting around query = visible
  have grouped : query.groupBy.forM (bindExpr setting visible) =
      performAll setting (query.groupBy.flatMap (exprActions visible)) :=
    bindExprs_eq visible query.groupBy id
  simp only [performAll_append, bind_assoc, ← bindExprs_eq, ← joined, ← grouped,
    ← optional visible query.filter fun _ => Select.mem_of_filter,
    ← optional visible query.having fun _ => Select.mem_of_having]
  rfl

/-- Looking up a condition is performing its actions. -/
theorem bindCondition_eq (condition : Predicate) (visible : Visible) :
    condition.fold (walk setting) visible =
      performAll setting (conditionActions setting condition visible) := by
  have all : ∀ (visible : Visible) (operands : List Predicate), (∀ operand ∈ operands,
      operand.fold (walk setting) visible =
        performAll setting (conditionActions setting operand visible)) →
      (operands.map (Predicate.fold (walk setting))).forM (· visible) =
        performAll setting (operands.flatMap (conditionActions setting · visible)) := by
    intro visible operands each
    induction operands with
    | nil => rfl
    | cons operand rest ih =>
      rw [List.map_cons, List.flatMap_cons, performAll_append, ← each operand List.mem_cons_self,
        ← ih fun other member => each other (List.mem_cons_of_mem _ member)]
      rfl
  have inside : ∀ (visible : Visible) (query : Query),
      (∀ condition ∈ query.conditions, ∀ visible, condition.fold (walk setting) visible =
        performAll setting (conditionActions setting condition visible)) →
      query.fold (walk setting) visible =
        performAll setting (queryActions setting query visible.inside) := by
    intro visible query each
    rw [Query.fold_eq]
    exact bindLevel_eq each _
  induction condition using Predicate.induction generalizing visible with
  | and operands ih =>
    rw [conditionActions_and, Predicate.fold_and]
    exact all visible operands fun operand member => ih operand member visible
  | or operands ih =>
    rw [conditionActions_or, Predicate.fold_or]
    exact all visible operands fun operand member => ih operand member visible
  | not operand ih => exact ih visible
  | group operand ih => exact ih visible
  | test test => exact bindTest_eq visible test
  | inQuery tested query negated ih =>
    rw [conditionActions_inQuery, performAll_append, ← bindExpr_eq, ← inside visible query ih]
    rfl
  | existsIn query negated ih =>
    rw [conditionActions_existsIn, ← inside visible query ih]
    rfl

/-- Looking up a query is performing its actions. -/
theorem bindQuery_eq (query : Query) :
    bindQuery setting query = performAll setting (queryActions setting query ⟨[], 0⟩) :=
  bindLevel_eq (fun condition _ => bindCondition_eq condition) _

end

end Binding

end QueryGuard
