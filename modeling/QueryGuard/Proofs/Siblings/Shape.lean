import QueryGuard.Proofs.Rewriting.Occurrences
/-!
The shape of a query: all of it but the aliases. Renaming keeps it.
-/

set_option autoImplicit false

namespace QueryGuard

/-- The place of a name, without the name. -/
def Name.blank (name : Name) : Name := { name with value := "" }

/-- The path without the alias that it starts at. -/
def Path.blank (path : Path) : Path := { path with root := path.root.blank }

def JoinTarget.blank : JoinTarget → JoinTarget
  | .path chain => .path chain.blank
  | .entity name => .entity name

namespace Select

variable {α : Type}

/-- The clauses of a query without aliases, given what its conditions are. -/
def blank (query : Select α) : Select α :=
  { query with
    items := query.items.map fun item => { item with expr := item.expr.mapPaths Path.blank }
    root := { query.root with name := query.root.name.blank }
    joins := query.joins.map fun join =>
      { join with target := join.target.blank, name := join.name.blank }
    groupBy := query.groupBy.map (Expr.mapPaths Path.blank)
    orderBy := query.orderBy.map fun item =>
      { item with expr := item.expr.mapPaths Path.blank } }

end Select

/-- The walk that leaves out aliases. -/
def shapeWalk : PredicateFold Predicate Query where
  and := .and
  or := .or
  not := .not
  group := .group
  test := fun leaf => .test (leaf.mapExprs (Expr.mapPaths Path.blank))
  inQuery := fun tested query negated => .inQuery (tested.mapPaths Path.blank) query negated
  existsIn := .existsIn
  query := Select.blank

def Predicate.shape : Predicate → Predicate := Predicate.fold shapeWalk

/-- The query without the aliases that it declares and without those that its paths start at. -/
def Query.shape : Query → Query := Query.fold shapeWalk

/-! ### Equations -/

theorem Expr.mapPaths_mapPaths (f g : Path → Path) (expr : Expr) :
    (expr.mapPaths f).mapPaths g = expr.mapPaths (g ∘ f) := by
  induction expr using Expr.induction with
  | path path => rfl
  | literal literal => rfl
  | parameter name => rfl
  | aggregate function distinct argument span ih =>
    exact congrArg (Expr.aggregate function distinct · span) ih
  | call name arguments span ih =>
    simp only [mapPaths, fold_call, List.map_map]
    exact congrArg (Expr.call name · span) (List.map_congr_left ih)

theorem Test.mapExprs_mapExprs (f g : Expr → Expr) (test : Test) :
    (test.mapExprs f).mapExprs g = test.mapExprs (g ∘ f) := by
  cases test with
  | inList tested items negated => simp only [mapExprs, List.map_map, Function.comp_apply]
  | _ => rfl

theorem Expr.blank_rename (names : Renaming) (expr : Expr) :
    (expr.mapPaths names.path).mapPaths Path.blank = expr.mapPaths Path.blank :=
  expr.mapPaths_mapPaths names.path Path.blank

theorem Query.shape_eq (query : Query) : query.shape = (query.map Predicate.shape).blank :=
  Query.fold_eq shapeWalk query

theorem Select.conditions_blank {α : Type} (query : Select α) :
    query.blank.conditions = query.conditions := by
  simp only [conditions, blank, List.filterMap_map]
  rfl

theorem Query.conditions_shape (query : Query) :
    query.shape.conditions = query.conditions.map Predicate.shape := by
  rw [shape_eq, Select.conditions_blank, Select.conditions_map]

namespace Predicate

theorem shape_and (operands : List Predicate) :
    (Predicate.and operands).shape = .and (operands.map shape) :=
  fold_and shapeWalk operands

theorem shape_or (operands : List Predicate) :
    (Predicate.or operands).shape = .or (operands.map shape) :=
  fold_or shapeWalk operands

theorem shape_inQuery (tested : Expr) (query : Query) (negated : Bool) :
    (Predicate.inQuery tested query negated).shape =
      .inQuery (tested.mapPaths Path.blank) query.shape negated := rfl

theorem shape_existsIn (query : Query) (negated : Bool) :
    (Predicate.existsIn query negated).shape = .existsIn query.shape negated := rfl

end Predicate

/-! ### Renaming -/

theorem JoinTarget.blank_rename (names : Renaming) (target : JoinTarget) :
    (names.target target).blank = target.blank := by
  cases target <;> rfl

/-- Without aliases, a renamed level is the level with its conditions renamed. -/
theorem Query.blank_rename {α : Type} (f : Predicate → α) (query : Query) (names : Renaming) :
    ((query.rename names).map f).blank = (query.map fun inner => f (inner.rename names)).blank := by
  have conditions : ∀ condition : Option Predicate,
      ((condition.map fun inner => inner.rename).map (· names)).map f =
        condition.map fun inner => f (inner.rename names) := by
    intro condition
    rw [Option.map_map, Option.map_map]
    rfl
  simp only [Query.rename, Renaming.walk.level, Select.map, Select.blank, List.map_map, conditions,
    Join.map, Function.comp_def, Expr.blank_rename, JoinTarget.blank_rename]
  rfl

theorem Query.shape_rename_of {query : Query} {names : Renaming}
    (each : ∀ condition ∈ query.conditions, (condition.rename names).shape = condition.shape) :
    (query.rename names).shape = query.shape := by
  rw [shape_eq, shape_eq, blank_rename, Select.map_congr each]

namespace Predicate

theorem shape_rename (predicate : Predicate) (names : Renaming) :
    (predicate.rename names).shape = predicate.shape := by
  induction predicate using Predicate.induction generalizing names with
  | and operands ih =>
    rw [rename_and, shape_and, shape_and, List.map_map]
    exact congrArg Predicate.and (List.map_congr_left fun operand member => ih operand member names)
  | or operands ih =>
    rw [rename_or, shape_or, shape_or, List.map_map]
    exact congrArg Predicate.or (List.map_congr_left fun operand member => ih operand member names)
  | not operand ih => exact congrArg Predicate.not (ih names)
  | group operand ih => exact congrArg Predicate.group (ih names)
  | test test =>
    change Predicate.test _ = Predicate.test _
    rw [Test.mapExprs_mapExprs]
    exact congrArg (Predicate.test <| test.mapExprs ·) (funext (Expr.blank_rename names))
  | inQuery tested query negated ih =>
    rw [rename_inQuery, shape_inQuery, shape_inQuery, Expr.blank_rename,
      Query.shape_rename_of fun condition member => ih condition member _]
  | existsIn query negated ih =>
    rw [rename_existsIn, shape_existsIn, shape_existsIn,
      Query.shape_rename_of fun condition member => ih condition member _]

end Predicate

theorem Query.shape_rename (query : Query) (names : Renaming) :
    (query.rename names).shape = query.shape :=
  shape_rename_of fun condition _ => condition.shape_rename names

/-! ### Replacing -/

/-- Queries whose conditions are the same apart from what a function leaves out, are the same apart
from that. -/
theorem Select.Related.map_eq {α β : Type} {f : α → β} {related : α → α → Prop}
    {query result : Select α} (same : query.Related related result)
    (each : ∀ first second, related first second → f second = f first) :
    result.map f = query.map f := by
  have optional : ∀ {condition changed : Option α}, Option.Rel related condition changed →
      changed.map f = condition.map f := by
    intro condition changed holds
    cases holds with
    | some holds => exact congrArg some (each _ _ holds)
    | none => rfl
  have joined : ∀ {joins results : List (Join α)},
      List.Forall₂ (Join.Related related) joins results →
      results.map (·.map f) = joins.map (·.map f) := by
    intro joins results holds
    induction holds with
    | nil => rfl
    | cons first _ ih =>
      rw [List.map_cons, List.map_cons, ih, Join.map, Join.map, first.kind, first.target,
        first.name, first.span, optional first.condition]
  rw [Select.map, Select.map, joined same.joins, optional same.filter, optional same.having,
    same.distinct, same.items, same.root, same.groupBy, same.orderBy, same.limit, same.offset,
    same.span]

theorem Predicate.Replaced.shape {predicate result : Predicate}
    (replaced : predicate.Replaced (fun query result => result.shape = query.shape) result) :
    result.shape = predicate.shape := by
  have all : ∀ operands results : List Predicate,
      List.Forall₂ (fun operand result => result.shape = operand.shape) operands results →
      results.map Predicate.shape = operands.map Predicate.shape := by
    intro operands results each
    rw [← List.forall₂_eq_eq_eq, List.forall₂_map_left_iff, List.forall₂_map_right_iff]
    exact each.flip
  refine replaced.induction ?and ?or ?not ?group ?test ?inQuery ?existsIn
  case and =>
    intro operands results each
    rw [shape_and, shape_and, all operands results each]
  case or =>
    intro operands results each
    rw [shape_or, shape_or, all operands results each]
  case not => exact fun _ _ same => congrArg Predicate.not same
  case group => exact fun _ _ same => congrArg Predicate.group same
  case test => exact fun _ => rfl
  case inQuery =>
    intro tested query result negated same
    rw [shape_inQuery, shape_inQuery, same]
  case existsIn =>
    intro query result negated same
    rw [shape_existsIn, shape_existsIn, same]

theorem Query.Replaced.shape {query result : Query}
    (replaced : query.Replaced (fun query result => result.shape = query.shape) result) :
    result.shape = query.shape := by
  rw [shape_eq, shape_eq, Select.Related.map_eq replaced fun _ _ inner => inner.shape]

end QueryGuard
