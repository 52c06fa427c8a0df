import QueryGuard.Syntax.Walk
/-!
Trees without their places: two trees are the same up to spans if these are equal.
-/

set_option autoImplicit false

namespace QueryGuard

/-- The value as if it had never been written down. -/
def Located.unplaced {α : Type} (located : Located α) : Located α := .synthetic located.value

def Path.unplaced (path : Path) : Path :=
  ⟨path.root.unplaced, path.attributes.map Located.unplaced, .synthetic⟩

namespace Expr

/-- The expression without places. -/
def unplaced : Expr → Expr :=
  fold {
    path := fun chain => .path chain.unplaced
    literal := fun constant => .literal constant.unplaced
    parameter := fun name => .parameter name.unplaced
    aggregate := fun function distinct argument _ =>
      .aggregate function distinct argument .synthetic
    call := fun name arguments _ => .call name.unplaced arguments .synthetic }

@[simp] theorem unplaced_path (path : Path) : (Expr.path path).unplaced = .path path.unplaced := rfl

@[simp] theorem unplaced_literal (literal : Located Literal) :
    (Expr.literal literal).unplaced = .literal literal.unplaced := rfl

@[simp] theorem unplaced_parameter (name : Name) :
    (Expr.parameter name).unplaced = .parameter name.unplaced := rfl

@[simp] theorem unplaced_aggregate (function : Aggregate) (distinct : Bool) (argument : Expr)
    (span : Span) :
    (Expr.aggregate function distinct argument span).unplaced =
      .aggregate function distinct argument.unplaced .synthetic := rfl

@[simp] theorem unplaced_call (name : Name) (arguments : List Expr) (span : Span) :
    (Expr.call name arguments span).unplaced =
      .call name.unplaced (arguments.map unplaced) .synthetic := by
  simp only [unplaced, fold_call]

end Expr

/-- The test without places. -/
def Test.unplaced : Test → Test
  | .compare left comparison right => .compare left.unplaced comparison right.unplaced
  | .inList tested items negated => .inList tested.unplaced (items.map Expr.unplaced) negated
  | .inParameter tested parameter negated => .inParameter tested.unplaced parameter.unplaced negated
  | .between tested low high negated =>
      .between tested.unplaced low.unplaced high.unplaced negated
  | .isNull tested negated => .isNull tested.unplaced negated
  | .like tested pattern escape negated =>
      .like tested.unplaced pattern.unplaced (escape.map Located.unplaced) negated

def SelectItem.unplaced (item : SelectItem) : SelectItem :=
  ⟨item.expr.unplaced, item.label.map Located.unplaced, .synthetic⟩

def OrderItem.unplaced (item : OrderItem) : OrderItem :=
  ⟨item.expr.unplaced, item.direction, .synthetic⟩

def Range.unplaced (range : Range) : Range := ⟨range.entity.unplaced, range.name.unplaced⟩

def JoinTarget.unplaced : JoinTarget → JoinTarget
  | .path chain => .path chain.unplaced
  | .entity name => .entity name.unplaced

section

variable {Condition : Type}

/-- The join without places outside its condition. -/
def Join.unplaced (join : Join Condition) : Join Condition :=
  ⟨join.kind, join.target.unplaced, join.name.unplaced, join.condition, .synthetic⟩

/-- The clauses without places outside the conditions. -/
def Select.unplaced (query : Select Condition) : Select Condition where
  distinct := query.distinct
  items := query.items.map SelectItem.unplaced
  root := query.root.unplaced
  joins := query.joins.map Join.unplaced
  filter := query.filter
  groupBy := query.groupBy.map Expr.unplaced
  having := query.having
  orderBy := query.orderBy.map OrderItem.unplaced
  limit := query.limit.map Located.unplaced
  offset := query.offset.map Located.unplaced
  span := .synthetic

/-- Places outside the conditions do not matter for these. -/
theorem Select.unplaced_map {α β : Type} (f : α → β) (query : Select α) :
    (query.map f).unplaced = query.unplaced.map f := by
  simp only [Select.unplaced, Select.map, List.map_map]
  rfl

end

/-- The walk that forgets all places. -/
def unplacedWalk : PredicateFold Predicate Query where
  and := .and
  or := .or
  not := .not
  group := .group
  test := fun leaf => .test leaf.unplaced
  inQuery := fun tested query negated => .inQuery tested.unplaced query negated
  existsIn := .existsIn
  query := Select.unplaced

/-- The condition without places. -/
def Predicate.unplaced : Predicate → Predicate := Predicate.fold unplacedWalk

/-- The query without places. -/
def Query.unplaced : Query → Query := Query.fold unplacedWalk

theorem Query.unplaced_eq (query : Query) :
    query.unplaced = Select.unplaced (query.map Predicate.unplaced) :=
  Query.fold_eq unplacedWalk query

namespace Predicate

@[simp] theorem unplaced_and (operands : List Predicate) :
    (Predicate.and operands).unplaced = .and (operands.map unplaced) := by
  simp only [unplaced, fold_and, unplacedWalk]

@[simp] theorem unplaced_or (operands : List Predicate) :
    (Predicate.or operands).unplaced = .or (operands.map unplaced) := by
  simp only [unplaced, fold_or, unplacedWalk]

@[simp] theorem unplaced_not (operand : Predicate) :
    operand.not.unplaced = operand.unplaced.not := rfl

@[simp] theorem unplaced_group (operand : Predicate) :
    operand.group.unplaced = operand.unplaced.group := rfl

@[simp] theorem unplaced_test (test : Test) :
    (Predicate.test test).unplaced = .test test.unplaced := rfl

@[simp] theorem unplaced_inQuery (tested : Expr) (query : Query) (negated : Bool) :
    (Predicate.inQuery tested query negated).unplaced =
      .inQuery tested.unplaced query.unplaced negated := rfl

@[simp] theorem unplaced_existsIn (query : Query) (negated : Bool) :
    (Predicate.existsIn query negated).unplaced = .existsIn query.unplaced negated := rfl

/-- Places do not matter for whether a conjunction has one operand only. -/
theorem unplaced_allOf (operands : List Predicate) :
    (allOf operands).unplaced = allOf (operands.map unplaced) := by
  rcases operands with _ | ⟨first, _ | ⟨second, rest⟩⟩ <;> simp [allOf]

theorem unplaced_anyOf (operands : List Predicate) :
    (anyOf operands).unplaced = anyOf (operands.map unplaced) := by
  rcases operands with _ | ⟨first, _ | ⟨second, rest⟩⟩ <;> simp [anyOf]

end Predicate

end QueryGuard
