import QueryGuard.Criterion.Basic
import QueryGuard.Json.Reader
import QueryGuard.Json.Record
/-!
Policies: callers see the rows whose attributes match attributes of their own.
-/

set_option autoImplicit false

namespace QueryGuard

/-- A comparison of an attribute of the row with one of the caller. -/
structure RowMatch where
  attr : String
  contextAttr : String
  /-- Whether the caller's attribute is a list of which the row's is to be one. -/
  many : Bool
deriving DecidableEq, Repr

/-- Which rows a policy admits. -/
inductive RowFilter where
  | matching (leaf : RowMatch)
  | and (filters : List RowFilter)
  | or (filters : List RowFilter)

/-- A policy for the rows of an entity. Callers for whom the bypass attribute is true, and
administrators, are exempt from it. -/
structure RowPolicy where
  name : String
  entity : String
  filter : RowFilter
  bypass : Option String

namespace RowFilter

mutual

/-- The comparisons in their order. -/
def leaves : RowFilter → List RowMatch
  | .matching leaf => [leaf]
  | .and filters => leavesOfAll filters
  | .or filters => leavesOfAll filters

def leavesOfAll : List RowFilter → List RowMatch
  | [] => []
  | filter :: rest => filter.leaves ++ leavesOfAll rest

end

mutual

/-- The condition that the filter stands for, given that of a comparison. -/
def compile (leaf : RowMatch → Predicate) : RowFilter → Predicate
  | .matching comparison => leaf comparison
  | .and filters => .allOf (compileAll leaf filters)
  | .or filters => .anyOf (compileAll leaf filters)

def compileAll (leaf : RowMatch → Predicate) : List RowFilter → List Predicate
  | [] => []
  | filter :: rest => filter.compile leaf :: compileAll leaf rest

end

end RowFilter

namespace RowPolicy

/-- Whether the policy does not concern the caller. -/
def exempts (policy : RowPolicy) (security : SecurityContext) : Bool :=
  security.admin ||
    match policy.bypass with
    | some name =>
        match security.attribute? name with
        | some (.bool value) => value
        | _ => false
    | none => false

/-- The parameter that stands for an attribute of the caller. -/
def parameter (policy : RowPolicy) (context : CriterionContext) (contextAttr : String) : String :=
  context.parameter (Criterion.localName policy.name contextAttr)

/-- The condition of a comparison. -/
def leafPredicate (policy : RowPolicy) (context : CriterionContext) (leaf : RowMatch) :
    Predicate :=
  let parameter := policy.parameter context leaf.contextAttr
  if leaf.many then .test (.inParameter (context.attr leaf.attr) (.synthetic parameter) false)
  else .equality (context.attr leaf.attr) (.ofParameter parameter)

/-- The value as a list. -/
def asList : Value → Value
  | .list items => .list items
  | single => .list [single]

/-- The parameter of a comparison with its value. -/
def leafParameter (policy : RowPolicy) (context : CriterionContext) (leaf : RowMatch) :
    Except QueryError (String × Value) :=
  match context.security.attribute? leaf.contextAttr with
  | some value =>
      return (policy.parameter context leaf.contextAttr, if leaf.many then asList value else value)
  | none => throw (.missingAttribute policy.name leaf.contextAttr)

/-- The first pair of each name. -/
def firstOfEach (pairs : List (String × Value)) : List (String × Value) :=
  pairs.foldl (fun kept pair => if kept.any (·.1 == pair.1) then kept else kept ++ [pair]) []

/-- What the policy adds for a range. -/
def contribution (policy : RowPolicy) (context : CriterionContext) :
    Except QueryError Contribution := do
  let parameters ← policy.filter.leaves.mapM (policy.leafParameter context)
  return ⟨policy.filter.compile (policy.leafPredicate context), firstOfEach parameters⟩

/-- The policy as a criterion. -/
def criterion (policy : RowPolicy) : Criterion where
  name := policy.name
  appliesTo := fun entity => entity.name == policy.entity
  contribute := fun context =>
    if policy.exempts context.security then return none
    else return some (← policy.contribution context)

end RowPolicy

/-! ### Policies as documents -/

open Json

def RowMatch.ofWritten? (many : Bool) (written : Written) : Option RowMatch := do
  let record ← written.record? ["attribute", "context_attribute"]
  return ⟨← record.required "attribute" Written.string?,
    ← record.required "context_attribute" Written.string?, many⟩

/-- The filter that a document writes with at most `depth` levels of nesting. -/
def RowFilter.ofWritten? (depth : Nat) (written : Written) : Option RowFilter :=
  match depth, written.variant? with
  | _ + 2, some ("attribute_eq", some leaf) => (RowMatch.ofWritten? false leaf).map .matching
  | _ + 2, some ("attribute_in", some leaf) => (RowMatch.ofWritten? true leaf).map .matching
  | depth + 2, some ("and", some filters) => (filters.list? (ofWritten? depth)).map .and
  | depth + 2, some ("or", some filters) => (filters.list? (ofWritten? depth)).map .or
  | _, _ => none

namespace RowPolicy

/-- The policy that a document writes with at most `depth` levels of nesting. -/
def ofWritten? (depth : Nat) (written : Written) : Option RowPolicy := do
  let record ← written.record? ["name", "entity", "filter", "bypass_attribute"]
  return {
    name := ← record.required "name" Written.string?
    entity := ← record.required "entity" Written.string?
    filter := ← record.required "filter" (RowFilter.ofWritten? (depth - 1))
    bypass := ← record.optional "bypass_attribute" none (Written.nullable? Written.string?) }

/-- The policies of a document. -/
def listOfText? (text : String) : Option (List RowPolicy) :=
  (Written.read? text).bind (·.list? (ofWritten? (nestingLimit - 1)))

end RowPolicy

end QueryGuard
