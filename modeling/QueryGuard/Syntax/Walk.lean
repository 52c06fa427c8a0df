import QueryGuard.Syntax.Tree
/-!
Walks through syntax trees: what to do at each kind of node, applied from the leaves up.

The equations that start with `fold_` describe every walk; `Expr.induction` and
`Predicate.induction` are the matching ways to prove something of all trees.
-/

set_option autoImplicit false

namespace QueryGuard

/-- What a walk through an expression does at each kind of node. -/
structure ExprFold (α : Type) where
  path : Path → α
  literal : Located Literal → α
  parameter : Name → α
  aggregate : Aggregate → Bool → α → Span → α
  call : Name → List α → Span → α

namespace Expr

variable {α : Type}

mutual

def fold (walk : ExprFold α) : Expr → α
  | .path chain => walk.path chain
  | .literal constant => walk.literal constant
  | .parameter name => walk.parameter name
  | .aggregate function distinct argument span =>
      walk.aggregate function distinct (argument.fold walk) span
  | .call name arguments span => walk.call name (foldAll walk arguments) span

def foldAll (walk : ExprFold α) : List Expr → List α
  | [] => []
  | expr :: rest => expr.fold walk :: foldAll walk rest

end

theorem foldAll_eq_map (walk : ExprFold α) (exprs : List Expr) :
    foldAll walk exprs = exprs.map (fold walk) := by
  induction exprs with
  | nil => rfl
  | cons expr rest ih => simp only [foldAll, ih, List.map_cons]

@[simp] theorem fold_path (walk : ExprFold α) (path : Path) :
    (Expr.path path).fold walk = walk.path path := rfl

@[simp] theorem fold_literal (walk : ExprFold α) (literal : Located Literal) :
    (Expr.literal literal).fold walk = walk.literal literal := rfl

@[simp] theorem fold_parameter (walk : ExprFold α) (name : Name) :
    (Expr.parameter name).fold walk = walk.parameter name := rfl

@[simp] theorem fold_aggregate (walk : ExprFold α) (function : Aggregate) (distinct : Bool)
    (argument : Expr) (span : Span) :
    (Expr.aggregate function distinct argument span).fold walk =
      walk.aggregate function distinct (argument.fold walk) span := rfl

@[simp] theorem fold_call (walk : ExprFold α) (name : Name) (arguments : List Expr)
    (span : Span) :
    (Expr.call name arguments span).fold walk =
      walk.call name (arguments.map (fold walk)) span := by
  simp only [fold, foldAll_eq_map]

theorem induction {motive : Expr → Prop}
    (path : ∀ path, motive (.path path))
    (literal : ∀ literal, motive (.literal literal))
    (parameter : ∀ name, motive (.parameter name))
    (aggregate : ∀ function distinct argument span, motive argument →
      motive (.aggregate function distinct argument span))
    (call : ∀ name arguments span, (∀ argument ∈ arguments, motive argument) →
      motive (.call name arguments span))
    (expr : Expr) : motive expr := by
  refine Expr.rec (motive_1 := motive) (motive_2 := fun exprs => ∀ expr ∈ exprs, motive expr)
    path literal parameter aggregate call ?_ ?_ expr
  · simp
  · intro head tail first rest
    simpa using ⟨first, rest⟩

end Expr

namespace Join

variable {α β : Type}

/-- The join with its condition replaced. -/
def map (f : α → β) (join : Join α) : Join β :=
  ⟨join.kind, join.target, join.name, join.condition.map f, join.span⟩

end Join

namespace Select

variable {α β : Type}

/-- The query with its conditions replaced. -/
def map (f : α → β) (query : Select α) : Select β :=
  ⟨query.distinct, query.items, query.root, query.joins.map (·.map f), query.filter.map f,
    query.groupBy, query.having.map f, query.orderBy, query.limit, query.offset, query.span⟩

end Select

/-- What a walk through conditions and queries does at each kind of node. -/
structure PredicateFold (α β : Type) where
  and : List α → α
  or : List α → α
  not : α → α
  group : α → α
  test : Test → α
  inQuery : Expr → β → Bool → α
  existsIn : β → Bool → α
  query : Select α → β

namespace Predicate

variable {α β : Type}

mutual

def fold (walk : PredicateFold α β) : Predicate → α
  | .and operands => walk.and (foldAll walk operands)
  | .or operands => walk.or (foldAll walk operands)
  | .not operand => walk.not (operand.fold walk)
  | .group operand => walk.group (operand.fold walk)
  | .test leaf => walk.test leaf
  | .inQuery tested query negated => walk.inQuery tested (foldQuery walk query) negated
  | .existsIn query negated => walk.existsIn (foldQuery walk query) negated

def foldAll (walk : PredicateFold α β) : List Predicate → List α
  | [] => []
  | predicate :: rest => predicate.fold walk :: foldAll walk rest

def foldCondition (walk : PredicateFold α β) : Option Predicate → Option α
  | none => none
  | some predicate => some (predicate.fold walk)

def foldJoin (walk : PredicateFold α β) : Join Predicate → Join α
  | ⟨kind, target, name, condition, span⟩ =>
      ⟨kind, target, name, foldCondition walk condition, span⟩

def foldJoins (walk : PredicateFold α β) : List (Join Predicate) → List (Join α)
  | [] => []
  | join :: rest => foldJoin walk join :: foldJoins walk rest

def foldQuery (walk : PredicateFold α β) : Select Predicate → β
  | ⟨distinct, items, root, joins, filter, groupBy, having, orderBy, limit, offset, span⟩ =>
      walk.query ⟨distinct, items, root, foldJoins walk joins, foldCondition walk filter, groupBy,
        foldCondition walk having, orderBy, limit, offset, span⟩

end

theorem foldAll_eq_map (walk : PredicateFold α β) (predicates : List Predicate) :
    foldAll walk predicates = predicates.map (fold walk) := by
  induction predicates with
  | nil => rfl
  | cons predicate rest ih => simp only [foldAll, ih, List.map_cons]

theorem foldCondition_eq_map (walk : PredicateFold α β) (condition : Option Predicate) :
    foldCondition walk condition = condition.map (fold walk) := by
  cases condition <;> rfl

theorem foldJoins_eq_map (walk : PredicateFold α β) (joins : List (Join Predicate)) :
    foldJoins walk joins = joins.map (·.map (fold walk)) := by
  induction joins with
  | nil => rfl
  | cons join rest ih =>
    cases join
    simp only [foldJoins, foldJoin, foldCondition_eq_map, ih, List.map_cons, Join.map]

end Predicate

/-- The walk through a whole query. -/
def Query.fold {α β : Type} (walk : PredicateFold α β) (query : Query) : β :=
  Predicate.foldQuery walk query

/-- A walk through a query acts on what it computed for the conditions. -/
theorem Query.fold_eq {α β : Type} (walk : PredicateFold α β) (query : Query) :
    query.fold walk = walk.query (query.map (Predicate.fold walk)) := by
  cases query
  simp only [Query.fold, Predicate.foldQuery, Predicate.foldJoins_eq_map,
    Predicate.foldCondition_eq_map, Select.map]

namespace Predicate

variable {α β : Type}

@[simp] theorem fold_and (walk : PredicateFold α β) (operands : List Predicate) :
    (Predicate.and operands).fold walk = walk.and (operands.map (fold walk)) := by
  simp only [fold, foldAll_eq_map]

@[simp] theorem fold_or (walk : PredicateFold α β) (operands : List Predicate) :
    (Predicate.or operands).fold walk = walk.or (operands.map (fold walk)) := by
  simp only [fold, foldAll_eq_map]

@[simp] theorem fold_not (walk : PredicateFold α β) (operand : Predicate) :
    operand.not.fold walk = walk.not (operand.fold walk) := rfl

@[simp] theorem fold_group (walk : PredicateFold α β) (operand : Predicate) :
    operand.group.fold walk = walk.group (operand.fold walk) := rfl

@[simp] theorem fold_test (walk : PredicateFold α β) (test : Test) :
    (Predicate.test test).fold walk = walk.test test := rfl

@[simp] theorem fold_inQuery (walk : PredicateFold α β) (tested : Expr) (query : Query)
    (negated : Bool) :
    (Predicate.inQuery tested query negated).fold walk =
      walk.inQuery tested (query.fold walk) negated := rfl

@[simp] theorem fold_existsIn (walk : PredicateFold α β) (query : Query) (negated : Bool) :
    (Predicate.existsIn query negated).fold walk = walk.existsIn (query.fold walk) negated := rfl

/-- What holds of a predicate whenever it holds of its parts, holds of all; the parts of a query
are its conditions. -/
theorem induction {motive : Predicate → Prop}
    (and : ∀ operands, (∀ operand ∈ operands, motive operand) → motive (.and operands))
    (or : ∀ operands, (∀ operand ∈ operands, motive operand) → motive (.or operands))
    (not : ∀ operand, motive operand → motive (.not operand))
    (group : ∀ operand, motive operand → motive (.group operand))
    (test : ∀ test, motive (.test test))
    (inQuery : ∀ tested (query : Query) negated,
      (∀ condition ∈ query.conditions, motive condition) →
      motive (.inQuery tested query negated))
    (existsIn : ∀ (query : Query) negated,
      (∀ condition ∈ query.conditions, motive condition) → motive (.existsIn query negated))
    (predicate : Predicate) : motive predicate := by
  refine Predicate.rec (motive_1 := motive)
    (motive_2 := fun operands => ∀ operand ∈ operands, motive operand)
    (motive_3 := fun query => ∀ condition ∈ query.conditions, motive condition)
    (motive_4 := fun joins => ∀ join ∈ joins, ∀ condition ∈ join.condition, motive condition)
    (motive_5 := fun condition => ∀ predicate ∈ condition, motive predicate)
    (motive_6 := fun join => ∀ condition ∈ join.condition, motive condition)
    and or not group test inQuery existsIn ?_ ?_ ?_ ?_ ?_ ?_ ?_ ?_ predicate
  · simp
  · intro head tail first rest
    simpa using ⟨first, rest⟩
  · intro distinct items root joins filter groupBy having orderBy limit offset span
      ofJoins ofFilter ofHaving condition member
    simp only [Select.conditions, List.mem_append, List.mem_filterMap, Option.mem_toList] at member
    rcases member with (⟨join, member, same⟩ | member) | member
    · exact ofJoins join member condition same
    · exact ofFilter condition member
    · exact ofHaving condition member
  · simp
  · intro head tail first rest
    simpa using ⟨first, rest⟩
  · simp
  · intro condition holds
    simpa using holds
  · intro kind target name condition span holds
    exact holds

end Predicate

end QueryGuard
