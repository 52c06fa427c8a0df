import QueryGuard.Proofs.Rewriting.Aliases
import QueryGuard.Proofs.Rewriting.Replacement
/-!
What one level of a query becomes when criteria are applied to it, said without the order of the
steps that do it.
-/

set_option autoImplicit false

namespace QueryGuard

namespace Constraint

/-! ### Conditions with parts -/

/-- The condition is in parentheses, which are written once only. -/
inductive Grouped : Predicate → Predicate → Prop where
  | already (inner : Predicate) : Grouped (.group inner) (.group inner)
  | now {predicate : Predicate} (bare : ∀ inner, predicate ≠ .group inner) :
      Grouped predicate (.group predicate)

/-- The result is the conjunction of the condition, if there is one, and the parts. -/
inductive Conjoined : Option Predicate → List Predicate → Option Predicate → Prop where
  | unchanged (condition : Option Predicate) : Conjoined condition [] condition
  | only (part : Predicate) : Conjoined none [part] (some part)
  | several {condition : Option Predicate} {parts operands : List Predicate}
      (nonempty : parts ≠ []) (several : 2 ≤ (condition.toList ++ parts).length)
      (grouped : List.Forall₂ Grouped (condition.toList ++ parts) operands) :
      Conjoined condition parts (some (.and operands))

theorem grouped_map (predicates : List Predicate) :
    List.Forall₂ Grouped predicates (predicates.map fun
      | .group inner => .group inner
      | other => .group other) := by
  induction predicates with
  | nil => exact .nil
  | cons first rest ih =>
    refine .cons ?_ ih
    cases first with
    | group inner => exact .already inner
    | _ => exact .now (by simp)

theorem conjoined_conjoin (condition : Option Predicate) (parts : List Predicate) :
    Conjoined condition parts (conjoin condition parts) := by
  unfold conjoin
  split
  · rename_i empty
    rw [List.isEmpty_iff.mp empty]
    exact .unchanged condition
  · rename_i nonempty
    rw [List.isEmpty_iff] at nonempty
    rcases parts with _ | ⟨part, rest⟩
    · exact absurd rfl nonempty
    · rcases condition with _ | condition
      · rcases rest with _ | ⟨second, rest⟩
        · exact .only part
        · exact .several nonempty (by simp) (grouped_map _)
      · exact .several nonempty (by simp) (grouped_map _)

/-! ### What criteria add -/

section

variable (setting : Setting) (copied : String → Predicate → Predicate → Prop)

/-- What a criterion is told of a range. -/
def contextOf (entity : Entity) (name : String) : CriterionContext :=
  ⟨name, entity, setting.schema, setting.security, setting.scope.parameterPrefix⟩

/-- What a criterion adds for a range: a copy of its condition, if it applies to the range's entity
and contributes one. -/
inductive Adds (range : BoundRange) (criterion : Criterion) : Option Predicate → Prop where
  | exempt {entity : Entity} (found : setting.schema.entity? range.entity = some entity)
      (other : criterion.appliesTo entity = false) : Adds range criterion none
  | silent {entity : Entity} (found : setting.schema.entity? range.entity = some entity)
      (applies : criterion.appliesTo entity = true)
      (result : criterion.contribute (contextOf setting entity range.name) = .ok none) :
      Adds range criterion none
  | condition {entity : Entity} {contribution : Contribution} {copy : Predicate}
      (found : setting.schema.entity? range.entity = some entity)
      (applies : criterion.appliesTo entity = true)
      (result : criterion.contribute (contextOf setting entity range.name) = .ok (some contribution))
      (copied : copied criterion.name contribution.predicate copy) :
      Adds range criterion (some copy)

/-- What the criteria add for the range of an alias, each once and in their order. -/
inductive Contributed (name : String) : List Predicate → Prop where
  | intro {range : BoundRange} {added : List (Option Predicate)}
      (found : setting.model.range? name = some range)
      (each : List.Forall₂ (Adds setting copied range) setting.criteria added) :
      Contributed name (added.filterMap id)

/-- What the criteria add for a joined range; nothing if they are not applied to joins. -/
def JoinContributed (name : String) (parts : List Predicate) : Prop :=
  if setting.scope.joins then Contributed setting copied name parts else parts = []

/-- The joins with the parts for left joins in their own conditions; the parts for inner joins are
left to the WHERE clause. -/
inductive JoinsConstrained :
    List (Join Predicate) → List (Join Predicate) → List Predicate → Prop where
  | nil : JoinsConstrained [] [] []
  | inner {join : Join Predicate} {joins results : List (Join Predicate)}
      {parts others : List Predicate} (kind : join.kind = .inner)
      (contributed : JoinContributed setting copied join.name.value parts)
      (rest : JoinsConstrained joins results others) :
      JoinsConstrained (join :: joins) (join :: results) (parts ++ others)
  | left {join : Join Predicate} {joins results : List (Join Predicate)}
      {parts others : List Predicate} {condition : Option Predicate} (kind : join.kind = .left)
      (contributed : JoinContributed setting copied join.name.value parts)
      (conjoined : Conjoined join.condition parts condition)
      (rest : JoinsConstrained joins results others) :
      JoinsConstrained (join :: joins) ({ join with condition } :: results) others

/-- One level with its conditions added: the queries inside it are related, if criteria are applied
to them, and nothing but the conditions of left joins and the WHERE clause has parts added. -/
inductive LevelConstrained (related : Query → Query → Prop) : Query → Query → Prop where
  | intro {query inside : Query} {joins : List (Join Predicate)} {rootParts innerParts : List Predicate}
      {filter : Option Predicate}
      (nested : setting.scope.subqueries = true → query.Replaced related inside)
      (kept : setting.scope.subqueries = false → inside = query)
      (root : Contributed setting copied query.root.name.value rootParts)
      (joined : JoinsConstrained setting copied inside.joins joins innerParts)
      (conjoined : Conjoined inside.filter (rootParts ++ innerParts) filter) :
      LevelConstrained related query { inside with joins, filter }

/-- The query with all conditions added, at its own level and in all queries inside it that criteria
are applied to. -/
inductive Constrained : Query → Query → Prop where
  | intro {related : Query → Query → Prop} {query result : Query}
      (level : LevelConstrained setting copied related query result)
      (inside : ∀ inner added, related inner added → Constrained inner added) :
      Constrained query result

end

end Constraint

end QueryGuard
