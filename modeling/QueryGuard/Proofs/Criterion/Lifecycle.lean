import QueryGuard.Proofs.Binding.Performing
import QueryGuard.Proofs.Criterion.Standard
import QueryGuard.Proofs.Rewriting.Resolving
/-!
The criteria of the lifecycle of entities: who owns them, and whether they were deleted. A checked catalog
knows the attributes that their conditions mention.
-/

set_option autoImplicit false

namespace QueryGuard

namespace Schema

variable {schema : Schema} {entity : Entity}

theorem ofEntities_check {entities : List Entity} (accepted : ofEntities entities = .ok schema) :
    schema.check = .ok () := by
  obtain ⟨inserted, _, accepted⟩ := ok_of_bind accepted
  obtain ⟨⟨⟩, checked, returned⟩ := ok_of_bind accepted
  exact Except.ok.inj returned ▸ checked

/-- The tenant that stands for none does not matter for the check. -/
theorem check_withSentinel (schema : Schema) (sentinel : String) :
    (schema.withSentinel sentinel).check = schema.check := rfl

/-- All entities of a checked catalog pass the check of an entity. -/
theorem checkEntity_of_check (checked : schema.check = .ok ()) {name : String}
    (known : schema.entity? name = some entity) : schema.checkEntity entity = .ok () :=
  forM_ok checked entity (List.mem_of_find?_eq_some known)

theorem attribute?_of_checkLifecycle {fits : Attribute → Bool}
    {error : (name entity : String) → ConfigurationError} {attr : String}
    (passes : checkLifecycle entity (some attr) fits error = .ok ()) :
    ∃ found, entity.attribute? attr = some found ∧ fits found = true := by
  unfold checkLifecycle at passes
  split at passes
  · rename_i name named
    obtain rfl := Option.some.inj named
    split at passes
    · rename_i fit
      exact (Option.any_eq_true _ _).mp fit
    · cases passes
  · cases ‹some attr = none›

/-- An attribute that holds a simple value can be followed. -/
theorem navigate_scalar {name attr : String} {found : Attribute}
    (known : schema.entity? name = some entity) (owned : entity.attribute? attr = some found)
    (scalar : found.scalarType?.isSome = true) :
    ∃ navigation, schema.navigate name [attr] = .ok navigation := by
  obtain ⟨type, scalar⟩ := Option.isSome_iff_exists.mp scalar
  have kind : found.kind = .scalar type := by
    unfold Attribute.scalarType? at scalar
    split at scalar
    · rename_i kind
      rw [kind, Option.some.inj scalar]
    · cases scalar
  have start : schema.requireEntity name = .ok entity := by
    rw [requireEntity, known]
    rfl
  have follows : schema.follow entity [attr] = .ok ([found], .scalar type) := by
    have required : requireAttribute entity attr = .ok found := by
      rw [requireAttribute, owned]
      rfl
    rw [follow, required, Binding.ok_bind, kind]
    rfl
  refine ⟨⟨entity.name, [found], .scalar type⟩, ?_⟩
  rw [navigate, start, Binding.ok_bind, follows]
  rfl

/-- The attributes of the lifecycle can be followed in a checked catalog. -/
theorem navigate_lifecycle (checked : schema.check = .ok ()) {name attr : String}
    (known : schema.entity? name = some entity)
    (named : entity.lifecycle.tenant = some attr ∨ entity.lifecycle.softDelete = some attr) :
    ∃ navigation, schema.navigate name [attr] = .ok navigation := by
  have passes := checkEntity_of_check checked known
  unfold checkEntity at passes
  split at passes
  · cases passes
  obtain ⟨⟨⟩, _, passes⟩ := ok_of_bind passes
  obtain ⟨⟨⟩, tenant, softDelete⟩ := ok_of_bind passes
  rcases named with named | named
  · rw [named] at tenant
    obtain ⟨found, owned, fits⟩ := attribute?_of_checkLifecycle tenant
    exact navigate_scalar known owned (Bool.and_eq_true_iff.mp fits).1
  · rw [named] at softDelete
    obtain ⟨found, owned, fits⟩ := attribute?_of_checkLifecycle softDelete
    exact navigate_scalar known owned (Bool.and_eq_true_iff.mp fits).2

end Schema

namespace Criterion

/-- The criteria of the lifecycle, with the local name of the tenant's parameter. -/
inductive Lifecycle (localName : String) : Criterion → Prop where
  | tenant : Lifecycle localName (tenant localName)
  | softDelete : Lifecycle localName softDelete

namespace Lifecycle

open Binding

variable {localName : String} {criterion : Criterion} {context : CriterionContext}
  {contribution : Contribution}

theorem standard (lifecycle : criterion.Lifecycle localName) : criterion.Standard := by
  cases lifecycle with
  | tenant => exact .tenant localName
  | softDelete => exact .softDelete

theorem contribute_ok (lifecycle : criterion.Lifecycle localName) (context : CriterionContext) :
    ∃ offer, criterion.contribute context = .ok offer := by
  cases lifecycle with
  | tenant => exact ⟨_, rfl⟩
  | softDelete => exact ⟨_, rfl⟩

/-- Only the criterion of tenants asks for a parameter, and always for the same one. -/
theorem eq_of_mem_parameters (lifecycle : criterion.Lifecycle localName)
    (result : criterion.contribute context = .ok (some contribution)) {parameter : String × Value}
    (member : parameter ∈ contribution.parameters) :
    criterion.name = "tenant" ∧ parameter = (context.parameter localName,
      .string (context.security.tenantOr context.schema.sentinel)) := by
  cases lifecycle with
  | tenant =>
    obtain ⟨attr, rfl⟩ := tenant_contribute_ok result
    exact ⟨rfl, List.mem_singleton.mp member⟩
  | softDelete =>
    obtain ⟨attr, rfl⟩ := softDelete_contribute_ok result
    cases member

theorem plain (lifecycle : criterion.Lifecycle localName)
    (result : criterion.contribute context = .ok (some contribution)) :
    contribution.predicate.Plain context.name := by
  cases lifecycle with
  | tenant =>
    obtain ⟨attr, rfl⟩ := tenant_contribute_ok result
    exact plain_tenantPredicate context attr _
  | softDelete =>
    obtain ⟨attr, rfl⟩ := softDelete_contribute_ok result
    exact .test fun path member => by rw [List.mem_singleton.mp member]; rfl

/-- The condition for a range can be looked up in a checked catalog, wherever the range is visible. -/
theorem holds (lifecycle : criterion.Lifecycle localName) {setting : Binding.Setting}
    (checked : setting.schema.check = .ok ()) {range : BoundRange} (named : range.name = context.name)
    (known : setting.schema.entity? range.entity = some context.entity)
    (result : criterion.contribute context = .ok (some contribution)) {visible : Visible}
    (shows : visible.Shows range) :
    ∀ action ∈ conditionActions setting contribution.predicate visible,
      action.Holds setting.schema := by
  have resolves : ∀ attr, context.entity.lifecycle.tenant = some attr ∨
      context.entity.lifecycle.softDelete = some attr → ∃ navigation,
        resolve setting.schema visible (.synthetic context.name [attr]) = .ok navigation := by
    intro attr owned
    obtain ⟨navigation, navigates⟩ := Schema.navigate_lifecycle checked known owned
    exact ⟨navigation, shows.resolve named.symm navigates⟩
  cases lifecycle with
  | tenant =>
    obtain ⟨attr, owned, rfl⟩ := Option.map_eq_some_iff.mp (Except.ok.inj result)
    have leads := resolves attr (.inl owned)
    exact List.forall_mem_cons.mpr ⟨leads, List.forall_mem_singleton.mpr leads⟩
  | softDelete =>
    obtain ⟨attr, owned, rfl⟩ := Option.map_eq_some_iff.mp (Except.ok.inj result)
    exact List.forall_mem_singleton.mpr (resolves attr (.inr owned))

end Lifecycle

end Criterion

end QueryGuard
