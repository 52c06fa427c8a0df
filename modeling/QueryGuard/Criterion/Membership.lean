import QueryGuard.Criterion.Basic
/-!
Callers see the rows they are members of.
-/

set_option autoImplicit false

namespace QueryGuard

/-- A rule that asks for an entity which ties the caller to the row. -/
structure Membership where
  name : String
  /-- The entity whose rows are seen by members only. -/
  target : String
  /-- The entity that ties callers to rows. -/
  membership : String
  /-- The attribute of the membership that leads to the row. -/
  reference : String := "target"
  /-- The attribute of the membership that names the member. -/
  member : String := "principal"
  /-- The attribute of the caller that the member is compared with. -/
  contextAttr : String := "principal"
  /-- The alias of the membership. -/
  label : String := "m"
deriving DecidableEq, Repr

namespace Membership

/-- An alias for the membership that does not hide the row. -/
def rangeName (rule : Membership) (outer : String) : String :=
  if rule.label = outer then rule.label ++ "1" else rule.label

/-- The caller's attribute; the identity is one of them. -/
def memberValue? (rule : Membership) (security : SecurityContext) : Option Value :=
  (security.attribute? rule.contextAttr).or <|
    if rule.contextAttr = "principal" then some (.string security.principal) else none

def predicate (rule : Membership) (context : CriterionContext) (parameter : String) : Predicate :=
  let name := rule.rangeName context.name
  let filter := Predicate.allOf [
    .equality (.ofPath name [rule.reference]) context.range,
    .equality (.ofPath name [rule.member]) (.ofParameter parameter)]
  .existsIn (Query.ofEntity rule.membership name filter) false

/-- The rule as a criterion. -/
def criterion (rule : Membership) : Criterion where
  name := rule.name
  appliesTo := fun entity => entity.name == rule.target
  contribute := fun context =>
    if context.security.admin then return none
    else
      match rule.memberValue? context.security with
      | some value =>
          let parameter := context.parameter (Criterion.localName rule.name rule.contextAttr)
          return some ⟨rule.predicate context parameter, [(parameter, value)]⟩
      | none => throw (.missingAttribute rule.name rule.contextAttr)

end Membership

end QueryGuard
