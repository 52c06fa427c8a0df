import QueryGuard.Proofs.Criterion.Standard
import QueryGuard.Proofs.Rewriting.Granting
import QueryGuard.Proofs.Rewriting.Sustaining
/-!
Why two criteria are in conflict about a parameter: both of them contribute it. Policies and memberships
name their parameters after themselves and the caller's attribute, so two of them are only in conflict if
the same name is formed for both.
-/

set_option autoImplicit false

namespace QueryGuard

/-! ### Lookups -/

/-- What looking up names fails with: one of them means nothing, or an alias is declared twice. -/
inductive QueryError.OfLookup : QueryError → Prop where
  | unresolved (root path : String) (reason : Unresolved) (span : Span) :
      OfLookup (.unresolved root path reason span)
  | collision (name : String) (span : Span) : OfLookup (.aliasCollision name span)

namespace Binding

variable {setting : Setting}

theorem perform_ofLookup {action : Action} {before : Found} {error : QueryError}
    (fails : (perform setting action).run before = .error error) : error.OfLookup := by
  have failing : ∀ {visible path error}, resolve setting.schema visible path = .error error →
      error.OfLookup := by
    intro visible path error fails
    obtain ⟨reason, rfl⟩ := resolve_error fails
    exact .unresolved _ _ _ _
  cases action with
  | require name entity =>
    rw [perform, requireEntity] at fails
    split at fails
    · rw [← Except.error.inj fails]
      exact .unresolved _ _ _ _
    · cases fails
  | follow visible path =>
    cases leads : resolve setting.schema visible path with
    | error other =>
      rw [perform, StateT.run_bind, bindPath_error leads] at fails
      exact Except.error.inj fails ▸ failing leads
    | ok navigation =>
      rw [perform, StateT.run_bind, bindPath_ok leads] at fails
      cases fails
  | expectEntity visible path =>
    cases leads : resolve setting.schema visible path with
    | error other =>
      rw [perform, leads] at fails
      exact Except.error.inj fails ▸ failing leads
    | ok navigation =>
      rw [perform_expectEntity_run leads] at fails
      split at fails
      · rw [← Except.error.inj fails]
        exact .unresolved _ _ _ _
      · cases fails
  | note visible parameter path =>
    cases leads : resolve setting.schema visible path with
    | error other =>
      rw [perform, noteType, leads] at fails
      exact Except.error.inj fails ▸ failing leads
    | ok navigation =>
      rw [perform_note_run leads] at fails
      cases fails
  | declare range =>
    by_cases taken : before.ranges.any (·.name = range.name)
    · rw [perform_declare_taken taken] at fails
      rw [← Except.error.inj fails]
      exact .collision _ _
    · rw [perform_declare_new taken] at fails
      cases fails

theorem performAll_ofLookup {actions : List Action} {before : Found} {error : QueryError}
    (fails : (performAll setting actions).run before = .error error) : error.OfLookup := by
  induction actions generalizing before with
  | nil => cases fails
  | cons action rest ih =>
    rw [performAll_cons, StateT.run_bind] at fails
    cases first : (perform setting action).run before with
    | error other =>
      rw [first] at fails
      exact Except.error.inj fails ▸ perform_ofLookup first
    | ok reached =>
      rw [first] at fails
      exact ih fails

end Binding

theorem Model.ofTree_ofLookup {schema : Schema} {query : Query} {parameters : ParameterMap}
    {applied : List String} {injected : List (String × String)} {error : QueryError}
    (fails : ofTree schema query parameters applied injected = .error error) : error.OfLookup := by
  rw [ofTree, Binding.bindQuery_eq] at fails
  cases run : (Binding.performAll ⟨schema, injected⟩
      (Binding.queryActions ⟨schema, injected⟩ query ⟨[], 0⟩)).run ⟨[], [], []⟩ with
  | error other =>
    rw [run] at fails
    exact Except.error.inj fails ▸ Binding.performAll_ofLookup run
  | ok reached =>
    rw [run] at fails
    cases fails

/-! ### Rivals -/

namespace Constraint

variable {setting : Setting} {related : String → String → Prop}

end Constraint

namespace Model

open Constraint

variable {schema catalog : Schema} {query : Query} {parameters : ParameterMap} {registry : Registry}
  {scope : Scope} {security : SecurityContext} {bound model : Model}

/-- Two criteria of different names that ask for the same parameter cannot both be applied. -/
theorem constrain_contested (bind : Model.bind schema query parameters = .ok bound)
    {range other : BoundRange} (member : range ∈ bound.ranges) (member' : other ∈ bound.ranges)
    (covered : scope.Covers range) (covered' : scope.Covers other) {first second : Claim}
    (asked : Asked (bound.setting catalog registry scope security) range first)
    (asked' : Asked (bound.setting catalog registry scope security) other second)
    (same : first.name = second.name) (rivals : first.criterion ≠ second.criterion) :
    ∃ error, bound.constrain catalog registry scope security = .error error := by
  cases constrain : bound.constrain catalog registry scope security with
  | error error => exact ⟨error, rfl⟩
  | ok model =>
    obtain ⟨kept, supplied, _⟩ := constrain_supplies bind constrain member covered asked
    obtain ⟨kept', supplied', _⟩ := constrain_supplies bind constrain member' covered' asked'
    rw [same] at supplied
    -- a parameter has one owner, but both criteria would be
    have distinct : (model.parameters.untyped.map (·.1)).Nodup :=
      model.parameters.names_untyped ▸ model.parameters.nodup
    have equal := List.inj_on_of_nodup_map distinct supplied supplied' rfl
    exact absurd (Owner.criterion.inj (Prod.mk.inj (Prod.mk.inj equal).2).2) rivals

end Model

/-! ### Steps that fail -/

/-- Steps for all elements fail because one of them does. -/
theorem mapM_error {ε α β : Type} {step : α → Except ε β} {items : List α} {error : ε}
    (fails : items.mapM step = .error error) : ∃ item ∈ items, step item = .error error := by
  induction items with
  | nil => cases fails
  | cons item items ih =>
    rw [List.mapM_cons] at fails
    cases here : step item with
    | error other =>
      rw [here] at fails
      obtain rfl := Except.error.inj fails
      exact ⟨item, List.mem_cons_self, here⟩
    | ok value =>
      rw [here] at fails
      cases others : items.mapM step with
      | error other =>
        rw [others] at fails
        obtain rfl := Except.error.inj fails
        obtain ⟨found, member, fails⟩ := ih others
        exact ⟨found, List.mem_cons_of_mem _ member, fails⟩
      | ok values =>
        rw [others] at fails
        cases fails

/-! ### Names of parameters -/

namespace Criterion

/-- Criteria that compare attributes of rows with those of the caller. -/
inductive Comparing : Criterion → Prop where
  | policy (policy : RowPolicy) : Comparing policy.criterion
  | membership (rule : Membership) : Comparing rule.criterion

/-- The criterion compares something with the caller's attribute. -/
inductive Reads : Criterion → String → Prop where
  | policy {policy : RowPolicy} {leaf : RowMatch} (member : leaf ∈ policy.filter.leaves) :
      Reads policy.criterion leaf.contextAttr
  | membership (rule : Membership) : Reads rule.criterion rule.contextAttr

namespace Comparing

variable {criterion : Criterion} {context : CriterionContext}

/-- A parameter is named after its criterion and an attribute that the criterion reads. -/
theorem name_of_contribute (comparing : criterion.Comparing) {contribution : Contribution}
    (result : criterion.contribute context = .ok (some contribution)) {parameter : String × Value}
    (member : parameter ∈ contribution.parameters) : ∃ attr, criterion.Reads attr ∧
      parameter.1 = context.parameter (localName criterion.name attr) := by
  cases comparing with
  | policy policy =>
    obtain ⟨parameters, values, rfl⟩ := RowPolicy.contribute_ok result
    obtain ⟨found, among, named⟩ := List.mem_map.mp
      (((RowPolicy.firstOfEach_keeps parameters).2 parameter.1).mp (List.mem_map_of_mem member))
    obtain ⟨leaf, listed, here⟩ := exists_mem_of_forall₂ (mapM_ok_iff.mp values).flip found among
    exact ⟨leaf.contextAttr, .policy listed, named ▸ RowPolicy.leafParameter_name here⟩
  | membership rule =>
    obtain ⟨value, _, rfl⟩ := Membership.contribute_ok result
    exact ⟨rule.contextAttr, .membership rule, congrArg Prod.fst (List.mem_singleton.mp member)⟩

/-- Only that an attribute is missing makes them fail. -/
theorem contribute_error (comparing : criterion.Comparing) {error : QueryError}
    (fails : criterion.contribute context = .error error) :
    ∃ attr, error = .missingAttribute criterion.name attr := by
  cases comparing with
  | policy policy =>
    change (if policy.exempts context.security then _ else _) = _ at fails
    split at fails
    · cases fails
    · cases values : policy.filter.leaves.mapM (policy.leafParameter context) with
      | error other =>
        rw [RowPolicy.contribution, values] at fails
        obtain rfl := Except.error.inj fails
        obtain ⟨leaf, _, missing⟩ := mapM_error values
        unfold RowPolicy.leafParameter at missing
        split at missing
        · cases missing
        · exact ⟨leaf.contextAttr, (Except.error.inj missing).symm⟩
      | ok parameters =>
        rw [RowPolicy.contribution, values] at fails
        cases fails
  | membership rule =>
    change (if context.security.admin then _ else _) = _ at fails
    split at fails
    · cases fails
    · cases value : rule.memberValue? context.security with
      | none =>
        rw [value] at fails
        exact ⟨rule.contextAttr, (Except.error.inj fails).symm⟩
      | some found =>
        rw [value] at fails
        cases fails

end Comparing

end Criterion

namespace Registry

end Registry

namespace Model

open Constraint

variable {catalog : Schema} {registry : Registry} {scope : Scope} {security : SecurityContext}
  {model : Model}

end Model

/-- A policy about the names of customers. -/
def RowPolicy.own (name : String) : RowPolicy :=
  ⟨name, "Customer", .matching ⟨"name", "label", false⟩, none⟩

/-- Customers are seen by an order. -/
def Membership.own (name : String) : Membership where
  name := name
  target := "Customer"
  membership := "Order"
  reference := "customer"
  member := "id"
  contextAttr := "label"

end QueryGuard
