import QueryGuard.Syntax.Walk
/-!
What occurs in a tree: paths, parameter markers, queries inside conditions, and how deeply they
are nested. All lists are in the order of the text.
-/

set_option autoImplicit false

namespace QueryGuard

/-- An expression without parts. -/
inductive Leaf where
  | path (path : Path)
  | literal (literal : Located Literal)
  | parameter (name : Name)
deriving DecidableEq, Repr

def Leaf.path? : Leaf → Option Path
  | .path chain => some chain
  | _ => none

def Leaf.parameter? : Leaf → Option Name
  | .parameter name => some name
  | _ => none

namespace Expr

/-- The leaves of an expression from left to right. -/
def leaves : Expr → List Leaf :=
  fold {
    path := fun chain => [.path chain]
    literal := fun constant => [.literal constant]
    parameter := fun name => [.parameter name]
    aggregate := fun _ _ argument _ => argument
    call := fun _ arguments _ => arguments.flatten }

def paths (expr : Expr) : List Path := expr.leaves.filterMap Leaf.path?

def markers (expr : Expr) : List Name := expr.leaves.filterMap Leaf.parameter?

/-- The expression with each path replaced. -/
def mapPaths (f : Path → Path) : Expr → Expr :=
  fold {
    path := fun chain => .path (f chain)
    literal := .literal
    parameter := .parameter
    aggregate := .aggregate
    call := .call }

end Expr

namespace Test

/-- The compared expressions. -/
def exprs : Test → List Expr
  | .compare left _ right => [left, right]
  | .inList tested items _ => tested :: items
  | .inParameter tested _ _ => [tested]
  | .between tested low high _ => [tested, low, high]
  | .isNull tested _ => [tested]
  | .like tested pattern _ _ => [tested, pattern]

def paths (test : Test) : List Path := test.exprs.flatMap Expr.paths

def markers (test : Test) : List Name :=
  match test with
  | .inParameter tested parameter _ => tested.markers ++ [parameter]
  | _ => test.exprs.flatMap Expr.markers

/-- Each compared expression with the one it is compared with. -/
def compared : Test → List (Expr × Expr)
  | .compare left _ right => [(right, left), (left, right)]
  | .inList tested items _ => items.map (·, tested)
  | .inParameter tested parameter _ => [(.parameter parameter, tested)]
  | .between tested low high _ => [(low, tested), (high, tested)]
  | .isNull _ _ => []
  | .like tested pattern _ _ => [(pattern, tested)]

def mapExprs (f : Expr → Expr) : Test → Test
  | .compare left comparison right => .compare (f left) comparison (f right)
  | .inList tested items negated => .inList (f tested) (items.map f) negated
  | .inParameter tested parameter negated => .inParameter (f tested) parameter negated
  | .between tested low high negated => .between (f tested) (f low) (f high) negated
  | .isNull tested negated => .isNull (f tested) negated
  | .like tested pattern escape negated => .like (f tested) (f pattern) escape negated

end Test

namespace Predicate

/-- The paths of a condition, without those of queries inside it. -/
def levelPaths : Predicate → List Path :=
  fold (β := Unit) {
    and := List.flatten
    or := List.flatten
    not := id
    group := id
    test := Test.paths
    inQuery := fun tested _ _ => tested.paths
    existsIn := fun _ _ => []
    query := fun _ => () }

mutual

/-- The queries inside a condition, but not those inside these queries. -/
def subqueries : Predicate → List Query
  | .and operands => subqueriesOfAll operands
  | .or operands => subqueriesOfAll operands
  | .not operand => operand.subqueries
  | .group operand => operand.subqueries
  | .test _ => []
  | .inQuery _ query _ => [query]
  | .existsIn query _ => [query]

def subqueriesOfAll : List Predicate → List Query
  | [] => []
  | predicate :: rest => predicate.subqueries ++ subqueriesOfAll rest

end

theorem subqueriesOfAll_eq_flatMap (predicates : List Predicate) :
    subqueriesOfAll predicates = predicates.flatMap subqueries := by
  induction predicates with
  | nil => rfl
  | cons predicate rest ih => simp only [subqueriesOfAll, ih, List.flatMap_cons]

section

variable {m : Type → Type} [Monad m]

mutual

/-- The condition with each query inside it replaced, from left to right; queries inside these are
left to the replacement. -/
def mapSubqueries (f : Query → m Query) : Predicate → m Predicate
  | .and operands => return .and (← mapSubqueriesOfAll f operands)
  | .or operands => return .or (← mapSubqueriesOfAll f operands)
  | .not operand => return .not (← operand.mapSubqueries f)
  | .group operand => return .group (← operand.mapSubqueries f)
  | .test leaf => return .test leaf
  | .inQuery tested query negated => return .inQuery tested (← f query) negated
  | .existsIn query negated => return .existsIn (← f query) negated

def mapSubqueriesOfAll (f : Query → m Query) : List Predicate → m (List Predicate)
  | [] => return []
  | predicate :: rest => return (← predicate.mapSubqueries f) :: (← mapSubqueriesOfAll f rest)

end

end

end Predicate

namespace Select

/-- The markers of a query, given those of its conditions. -/
def markersFrom (query : Select (List Name)) : List Name :=
  query.items.flatMap (·.expr.markers) ++
    query.joins.flatMap (·.condition.getD []) ++
    query.filter.getD [] ++
    query.groupBy.flatMap Expr.markers ++
    query.having.getD [] ++
    query.orderBy.flatMap (·.expr.markers)

/-- The levels of queries inside a query, given those inside its conditions. -/
def nestingFrom (query : Select Nat) : Nat := query.conditions.foldl max 0

end Select

/-- The walk that lists parameter markers. -/
def markerWalk : PredicateFold (List Name) (List Name) where
  and := List.flatten
  or := List.flatten
  not := id
  group := id
  test := Test.markers
  inQuery := fun tested query _ => tested.markers ++ query
  existsIn := fun query _ => query
  query := Select.markersFrom

/-- The parameter markers of a condition, queries inside it included. -/
def Predicate.markers : Predicate → List Name := Predicate.fold markerWalk

/-- The parameter markers of a query at all levels. -/
def Query.markers : Query → List Name := Query.fold markerWalk

/-- The walk that counts levels of nested queries. -/
def nestingWalk : PredicateFold Nat Nat where
  and := (·.foldl max 0)
  or := (·.foldl max 0)
  not := id
  group := id
  test := fun _ => 0
  inQuery := fun _ query _ => query + 1
  existsIn := fun query _ => query + 1
  query := Select.nestingFrom

/-- The number of levels of queries inside a condition. -/
def Predicate.nesting : Predicate → Nat := Predicate.fold nestingWalk

/-- The number of levels of queries inside a query. -/
def Query.nesting : Query → Nat := Query.fold nestingWalk

namespace Query

/-- The queries inside the conditions of this level. -/
def subqueries (query : Query) : List Query := query.conditions.flatMap Predicate.subqueries

/-- The query with each query inside its conditions replaced, in the order of the text. -/
def mapSubqueries {m : Type → Type} [Monad m] (f : Query → m Query) (query : Query) :
    m Query := do
  let joins ← query.joins.mapM fun join => do
    return { join with condition := ← join.condition.mapM (·.mapSubqueries f) }
  let filter ← query.filter.mapM (·.mapSubqueries f)
  let having ← query.having.mapM (·.mapSubqueries f)
  return { query with joins, filter, having }

/-- The walk that lists aliases. -/
def aliasWalk : PredicateFold (List String) (List String) where
  and := List.flatten
  or := List.flatten
  not := id
  group := id
  test := fun _ => []
  inQuery := fun _ query _ => query
  existsIn := fun query _ => query
  query := fun query => query.aliases.map (·.value) ++ query.conditions.flatten

/-- The aliases declared at all levels, those of a level before those of queries inside it. -/
def allAliases : Query → List String := fold aliasWalk

end Query

end QueryGuard
