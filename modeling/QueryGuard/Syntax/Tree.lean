import QueryGuard.Number.Binary64
import QueryGuard.Text.Span
/-!
Syntax trees of queries.

A query selects expressions over ranges: a root range, and joined ones. Conditions are trees of
their own, which may hold queries again. `Select` and `Join` leave open what a condition is, so
that a query is a `Select` of predicates, and what a walk computes for it starts from a `Select`
of what it computed for the conditions.
-/

set_option autoImplicit false

namespace QueryGuard

/-- A chain of attributes that starts at a range. -/
structure Path where
  root : Name
  attributes : List Name
  span : Span
deriving DecidableEq, Repr, Inhabited

/-- A constant of a query. -/
inductive Literal where
  | null
  | bool (value : Bool)
  | integer (value : Int64)
  | decimal (value : Binary64)
  | string (value : String)
deriving DecidableEq, Repr, Inhabited

/-- The functions that summarize a group of rows. -/
inductive Aggregate where
  | count | sum | avg | min | max
deriving DecidableEq, Repr

/-- A value to be computed. -/
inductive Expr where
  | path (path : Path)
  | literal (literal : Located Literal)
  | parameter (name : Name)
  | aggregate (function : Aggregate) (distinct : Bool) (argument : Expr) (span : Span)
  | call (name : Name) (arguments : List Expr) (span : Span)
deriving Inhabited

/-- How two values are compared. -/
inductive Comparison where
  | equal | notEqual | less | lessEqual | greater | greaterEqual
deriving DecidableEq, Repr

/-- A condition on values. -/
inductive Test where
  | compare (left : Expr) (comparison : Comparison) (right : Expr)
  | inList (tested : Expr) (items : List Expr) (negated : Bool)
  | inParameter (tested : Expr) (parameter : Name) (negated : Bool)
  | between (tested low high : Expr) (negated : Bool)
  | isNull (tested : Expr) (negated : Bool)
  | like (tested pattern : Expr) (escape : Option Name) (negated : Bool)
deriving Inhabited

/-- An entity with the alias it goes by. -/
structure Range where
  entity : Name
  name : Name
deriving DecidableEq, Repr, Inhabited

inductive JoinKind where
  | inner | left
deriving DecidableEq, Repr

/-- What is joined: the entities that a path leads to, or all of a kind. -/
inductive JoinTarget where
  | path (path : Path)
  | entity (name : Name)
deriving DecidableEq, Repr, Inhabited

/-- A joined range with the alias it goes by. -/
structure Join (Condition : Type) where
  kind : JoinKind
  target : JoinTarget
  name : Name
  condition : Option Condition
  span : Span

/-- A selected expression. -/
structure SelectItem where
  expr : Expr
  label : Option Name
  span : Span
deriving Inhabited

inductive Direction where
  | ascending | descending
deriving DecidableEq, Repr

structure OrderItem where
  expr : Expr
  direction : Direction
  span : Span

/-- The clauses of a query. -/
structure Select (Condition : Type) where
  distinct : Bool
  items : List SelectItem
  root : Range
  joins : List (Join Condition)
  filter : Option Condition
  groupBy : List Expr
  having : Option Condition
  orderBy : List OrderItem
  limit : Option (Located Nat)
  offset : Option (Located Nat)
  span : Span

/-- A condition. Parentheses that were written are kept as groups. -/
inductive Predicate where
  | and (operands : List Predicate)
  | or (operands : List Predicate)
  | not (operand : Predicate)
  | group (operand : Predicate)
  | test (test : Test)
  | inQuery (tested : Expr) (query : Select Predicate) (negated : Bool)
  | existsIn (query : Select Predicate) (negated : Bool)

instance : Inhabited Predicate := ⟨.and []⟩

/-- A complete query, or one inside a condition. -/
abbrev Query := Select Predicate

namespace Aggregate

def all : List Aggregate := [count, sum, avg, min, max]

def spelling : Aggregate → String
  | count => "count"
  | sum => "sum"
  | avg => "avg"
  | min => "min"
  | max => "max"

/-- The aggregate of a name in any case. -/
def ofName? (name : String) : Option Aggregate :=
  all.find? fun aggregate => aggregate.spelling.toList == name.toList.map Char.toLower

end Aggregate

namespace Path

/-- A path that was never written down. -/
def synthetic (root : String) (attributes : List String) : Path :=
  ⟨.synthetic root, attributes.map .synthetic, .synthetic⟩

def attributeNames (path : Path) : List String := path.attributes.map (·.value)

/-- The attributes with dots between them. -/
def dotted (path : Path) : String := ".".intercalate path.attributeNames

end Path

namespace Expr

/-- The path of a bare alias or of attributes, never written down. -/
def ofPath (root : String) (attributes : List String) : Expr := .path (.synthetic root attributes)

/-- A parameter that was never written down. -/
def ofParameter (name : String) : Expr := .parameter (.synthetic name)

/-- A string that was never written down. -/
def ofString (value : String) : Expr := .literal (.synthetic (.string value))

def span : Expr → Span
  | .path chain => chain.span
  | .literal constant => constant.span
  | .parameter name => name.span
  | .aggregate _ _ _ span => span
  | .call _ _ span => span

def isAggregate : Expr → Bool
  | .aggregate .. => true
  | _ => false

def path? : Expr → Option Path
  | .path chain => some chain
  | _ => none

end Expr

namespace Select

variable {Condition : Type}

/-- The ranges' aliases, the root's first. -/
def aliases (query : Select Condition) : List Name :=
  query.root.name :: query.joins.map (·.name)

/-- Whether a range of this level goes by the alias. -/
def declares (query : Select Condition) (name : String) : Bool :=
  query.aliases.any (·.value == name)

/-- The conditions in the order they are written: of joins, then WHERE, then HAVING. -/
def conditions (query : Select Condition) : List Condition :=
  query.joins.filterMap (·.condition) ++ query.filter.toList ++ query.having.toList

end Select

/-- All entities of a kind, never written down. -/
def Query.ofEntity (entity name : String) (filter : Option Predicate) : Query where
  distinct := false
  items := [⟨.ofPath name [], none, .synthetic⟩]
  root := ⟨.synthetic entity, .synthetic name⟩
  joins := []
  filter
  groupBy := []
  having := none
  orderBy := []
  limit := none
  offset := none
  span := .synthetic

namespace Predicate

/-- A conjunction; one operand stands for itself. -/
def allOf : List Predicate → Predicate
  | [only] => only
  | operands => .and operands

/-- A disjunction; one operand stands for itself. -/
def anyOf : List Predicate → Predicate
  | [only] => only
  | operands => .or operands

/-- The comparison of two values for equality. -/
def equality (left right : Expr) : Predicate := .test (.compare left .equal right)

end Predicate

end QueryGuard
