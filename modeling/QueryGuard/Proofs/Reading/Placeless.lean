import QueryGuard.Proofs.Reading.Unplaced
import QueryGuard.Proofs.Trees
import QueryGuard.Syntax.Printer
/-!
What a walk computes from a tree without places. Its text, its aliases and the names of its markers
are those of the tree.
-/

set_option autoImplicit false

namespace QueryGuard

/-- On each node without places, the walk computes the image of what it computes on the node. -/
structure PredicateFold.Placeless {α β : Type} (walk : PredicateFold α β) (f : α → α)
    (g : β → β) : Prop where
  and : ∀ operands, walk.and (operands.map f) = f (walk.and operands)
  or : ∀ operands, walk.or (operands.map f) = f (walk.or operands)
  not : ∀ operand, walk.not (f operand) = f (walk.not operand)
  group : ∀ operand, walk.group (f operand) = f (walk.group operand)
  test : ∀ leaf, walk.test leaf.unplaced = f (walk.test leaf)
  inQuery : ∀ tested query negated,
    walk.inQuery tested.unplaced (g query) negated = f (walk.inQuery tested query negated)
  existsIn : ∀ query negated, walk.existsIn (g query) negated = f (walk.existsIn query negated)
  query : ∀ query, walk.query (query.map f).unplaced = g (walk.query query)

namespace PredicateFold.Placeless

variable {α β : Type} {walk : PredicateFold α β} {f : α → α} {g : β → β}

theorem fold_query_of (placeless : walk.Placeless f g) {query : Query}
    (each : ∀ condition ∈ query.conditions,
      condition.unplaced.fold walk = f (condition.fold walk)) :
    query.unplaced.fold walk = g (query.fold walk) := by
  have conditions : query.map (Predicate.fold walk ∘ Predicate.unplaced) =
      query.map (f ∘ Predicate.fold walk) := Select.map_congr each
  rw [Query.unplaced_eq, Query.fold_eq, ← Select.unplaced_map, Select.map_map, conditions,
    ← Select.map_map, placeless.query, Query.fold_eq]

theorem fold_predicate (placeless : walk.Placeless f g) (predicate : Predicate) :
    predicate.unplaced.fold walk = f (predicate.fold walk) := by
  have all : ∀ operands : List Predicate,
      (∀ operand ∈ operands, operand.unplaced.fold walk = f (operand.fold walk)) →
      (operands.map Predicate.unplaced).map (Predicate.fold walk) =
        (operands.map (Predicate.fold walk)).map f := by
    intro operands each
    rw [List.map_map, List.map_map]
    exact List.map_congr_left each
  induction predicate using Predicate.induction with
  | and operands ih =>
    rw [Predicate.unplaced_and, Predicate.fold_and, all operands ih, placeless.and,
      Predicate.fold_and]
  | or operands ih =>
    rw [Predicate.unplaced_or, Predicate.fold_or, all operands ih, placeless.or, Predicate.fold_or]
  | not operand ih =>
    rw [Predicate.unplaced_not, Predicate.fold_not, ih, placeless.not, Predicate.fold_not]
  | group operand ih =>
    rw [Predicate.unplaced_group, Predicate.fold_group, ih, placeless.group, Predicate.fold_group]
  | test test => exact placeless.test test
  | inQuery tested query negated ih =>
    rw [Predicate.unplaced_inQuery, Predicate.fold_inQuery, placeless.fold_query_of ih,
      placeless.inQuery, Predicate.fold_inQuery]
  | existsIn query negated ih =>
    rw [Predicate.unplaced_existsIn, Predicate.fold_existsIn, placeless.fold_query_of ih,
      placeless.existsIn, Predicate.fold_existsIn]

theorem fold_query (placeless : walk.Placeless f g) (query : Query) :
    query.unplaced.fold walk = g (query.fold walk) :=
  placeless.fold_query_of fun condition _ => placeless.fold_predicate condition

end PredicateFold.Placeless

/-! ### Texts -/

@[simp] theorem Path.print_unplaced (path : Path) : path.unplaced.print = path.print := by
  simp only [print, unplaced, Located.unplaced, Located.synthetic, List.flatMap_map]

@[simp] theorem Expr.print_unplaced (expr : Expr) : expr.unplaced.print = expr.print := by
  induction expr using Expr.induction with
  | path path => exact path.print_unplaced
  | literal literal => rfl
  | parameter name => rfl
  | aggregate function distinct argument span ih =>
    exact congrArg (fun text => function.spelling.toList ++
      Printing.parenthesized ((if distinct then "distinct ".toList else []) ++ text)) ih
  | call name arguments span ih =>
    have printed : (arguments.map unplaced).map print = arguments.map print := by
      rw [List.map_map]
      exact List.map_congr_left ih
    rw [unplaced_call, print, fold_call, fold_call]
    exact congrArg (fun texts => name.value.toList ++
      Printing.parenthesized (Printing.commaList texts)) printed

theorem Test.print_unplaced (test : Test) : test.unplaced.print = test.print := by
  cases test with
  | inList tested items negated =>
    simp only [unplaced, print, Expr.print_unplaced, List.map_map, Function.comp_def]
  | like tested pattern escape negated =>
    simp only [unplaced, print, Expr.print_unplaced, Option.map_map]
    rfl
  | inParameter tested parameter negated =>
    simp only [unplaced, print, Expr.print_unplaced]
    rfl
  | _ => simp only [unplaced, print, Expr.print_unplaced]

theorem SelectItem.print_unplaced (item : SelectItem) : item.unplaced.print = item.print := by
  simp only [print, unplaced, Expr.print_unplaced, Option.map_map]
  rfl

theorem Join.print_unplaced (join : Join (List Char)) : join.unplaced.print = join.print := by
  have target : join.target.unplaced.print = join.target.print := by
    cases join.target with
    | path chain => exact chain.print_unplaced
    | entity name => rfl
  simp only [print, unplaced, target]
  rfl

theorem OrderItem.print_unplaced (item : OrderItem) : item.unplaced.print = item.print :=
  congrArg (· ++ if item.direction = .descending then " desc".toList else [])
    item.expr.print_unplaced

theorem Select.print_unplaced (query : Select (List Char)) :
    query.unplaced.print = query.print := by
  have items : (query.items.map SelectItem.unplaced).map SelectItem.print =
      query.items.map SelectItem.print := by
    rw [List.map_map]
    exact List.map_congr_left fun item _ => item.print_unplaced
  have joins : (query.joins.map Join.unplaced).flatMap Join.print = query.joins.flatMap Join.print := by
    rw [List.flatMap_map, funext Join.print_unplaced]
  have grouped : (query.groupBy.map Expr.unplaced).map Expr.print = query.groupBy.map Expr.print := by
    rw [List.map_map]
    exact List.map_congr_left fun expr _ => expr.print_unplaced
  have ordered : (query.orderBy.map OrderItem.unplaced).map OrderItem.print =
      query.orderBy.map OrderItem.print := by
    rw [List.map_map]
    exact List.map_congr_left fun item _ => item.print_unplaced
  have count : ∀ number : Option (Located Nat),
      ((number.map Located.unplaced).map fun count => (toString count.value).toList) =
        number.map fun count => (toString count.value).toList := by
    intro number
    cases number <;> rfl
  have root : query.root.unplaced.print = query.root.print := rfl
  unfold print
  dsimp only [unplaced]
  rw [items, root, joins, grouped, ordered, count, count]
  -- only the decisions about DISTINCT differ
  congr

theorem printWalk_placeless : printWalk.Placeless id id where
  and operands := by rw [List.map_id]; rfl
  or operands := by rw [List.map_id]; rfl
  not _ := rfl
  group _ := rfl
  test leaf := congrArg (PrintedCondition.mk .atom) leaf.print_unplaced
  inQuery tested query negated := by
    simp only [printWalk, Expr.print_unplaced, id_eq]
  existsIn _ _ := rfl
  query query := by
    rw [Select.map_id]
    exact (congrArg Select.print (Select.unplaced_map _ query).symm).trans
      (Select.print_unplaced _)

/-- Places do not matter for the text of a query. -/
theorem Query.text_unplaced (query : Query) : query.unplaced.text = query.text :=
  congrArg String.ofList (printWalk_placeless.fold_query query)

/-! ### Aliases and markers -/

def Leaf.unplaced : Leaf → Leaf
  | .path chain => .path chain.unplaced
  | .literal constant => .literal constant.unplaced
  | .parameter name => .parameter name.unplaced

namespace Expr

theorem leaves_unplaced (expr : Expr) : expr.unplaced.leaves = expr.leaves.map Leaf.unplaced := by
  induction expr using Expr.induction with
  | path path => rfl
  | literal literal => rfl
  | parameter name => rfl
  | aggregate function distinct argument span ih => exact ih
  | call name arguments span ih =>
    have each : arguments.map (leaves ∘ unplaced) =
        arguments.map (List.map Leaf.unplaced ∘ leaves) := List.map_congr_left ih
    rw [unplaced_call, leaves, fold_call, fold_call, List.map_map, List.map_flatten, List.map_map]
    exact congrArg List.flatten each

theorem paths_unplaced (expr : Expr) : expr.unplaced.paths = expr.paths.map Path.unplaced := by
  rw [paths, paths, leaves_unplaced, List.filterMap_map, List.map_filterMap]
  refine congrArg (List.filterMap · expr.leaves) (funext fun leaf => ?_)
  cases leaf <;> rfl

theorem markers_unplaced (expr : Expr) :
    expr.unplaced.markers = expr.markers.map Located.unplaced := by
  rw [markers, markers, leaves_unplaced, List.filterMap_map, List.map_filterMap]
  refine congrArg (List.filterMap · expr.leaves) (funext fun leaf => ?_)
  cases leaf <;> rfl

end Expr

namespace Test

theorem exprs_unplaced (test : Test) : test.unplaced.exprs = test.exprs.map Expr.unplaced := by
  cases test <;> rfl

theorem markers_unplaced (test : Test) :
    test.unplaced.markers = test.markers.map Located.unplaced := by
  have exprs : test.unplaced.exprs.flatMap Expr.markers =
      (test.exprs.flatMap Expr.markers).map Located.unplaced := by
    rw [exprs_unplaced, List.flatMap_map, List.map_flatMap, funext Expr.markers_unplaced]
  cases test with
  | inParameter tested parameter negated =>
    change tested.unplaced.markers ++ [parameter.unplaced] =
      (tested.markers ++ [parameter]).map Located.unplaced
    rw [Expr.markers_unplaced, List.map_append]
    rfl
  | _ => exact exprs

end Test

theorem Select.markersFrom_unplaced (query : Select (List Name)) :
    (query.map (List.map Located.unplaced)).unplaced.markersFrom =
      query.markersFrom.map Located.unplaced := by
  have optional : ∀ condition : Option (List Name),
      (condition.map (List.map Located.unplaced)).getD [] =
        (condition.getD []).map Located.unplaced := by
    intro condition
    cases condition <;> rfl
  simp only [markersFrom, unplaced, map, Join.map, Join.unplaced, SelectItem.unplaced,
    OrderItem.unplaced, List.map_map, List.flatMap_map, List.map_append, List.map_flatMap,
    Function.comp_apply, Expr.markers_unplaced, optional]

theorem Select.aliases_unplaced {α : Type} (query : Select α) :
    query.unplaced.aliases = query.aliases.map Located.unplaced := by
  simp only [aliases, unplaced, List.map_cons, List.map_map]
  rfl

theorem Select.conditions_unplaced {α : Type} (query : Select α) :
    query.unplaced.conditions = query.conditions := by
  simp only [conditions, unplaced, List.filterMap_map]
  rfl

theorem aliasWalk_placeless : Query.aliasWalk.Placeless id id where
  and operands := by rw [List.map_id]; rfl
  or operands := by rw [List.map_id]; rfl
  not _ := rfl
  group _ := rfl
  test _ := rfl
  inQuery _ _ _ := rfl
  existsIn _ _ := rfl
  query query := by
    rw [Select.map_id]
    change query.unplaced.aliases.map (·.value) ++ query.unplaced.conditions.flatten =
      query.aliases.map (·.value) ++ query.conditions.flatten
    rw [Select.aliases_unplaced, Select.conditions_unplaced, List.map_map]
    rfl

theorem Query.allAliases_unplaced (query : Query) : query.unplaced.allAliases = query.allAliases :=
  aliasWalk_placeless.fold_query query

theorem markerWalk_placeless :
    markerWalk.Placeless (List.map Located.unplaced) (List.map Located.unplaced) where
  and operands := List.map_flatten.symm
  or operands := List.map_flatten.symm
  not _ := rfl
  group _ := rfl
  test leaf := leaf.markers_unplaced
  inQuery tested query negated := by
    change tested.unplaced.markers ++ _ = _
    rw [Expr.markers_unplaced, ← List.map_append]
    rfl
  existsIn _ _ := rfl
  query query := query.markersFrom_unplaced

/-- The markers of a query have the same names without their places. -/
theorem Query.markers_unplaced (query : Query) :
    query.unplaced.markers.map (·.value) = query.markers.map (·.value) := by
  have markers : query.unplaced.markers = query.markers.map Located.unplaced :=
    markerWalk_placeless.fold_query query
  rw [markers, List.map_map]
  rfl

end QueryGuard
