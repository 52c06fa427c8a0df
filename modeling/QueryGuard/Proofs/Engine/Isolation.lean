import QueryGuard.Proofs.Engine.Serialization
import QueryGuard.Proofs.Rewriting.Placing
/-!
What the criterion of tenants keeps from a caller: the rows of other tenants.
-/

set_option autoImplicit false

namespace QueryGuard

open Constraint

namespace Criterion

/-- The condition of a tenant is true of the rows that the tenant owns, and of all rows if the tenant is
the one that stands for none. -/
theorem truth_tenantPredicate {context : CriterionContext} {attr parameter tenant : String} {row : Row}
    (bound : row.parameter parameter = .string tenant) :
    (tenantPredicate context attr parameter).truth row = some true ↔
      tenant = context.schema.sentinel ∨ row.attr ⟨context.name, [attr]⟩ = .string tenant := by
  have first : ((Expr.ofParameter parameter).value row).equals
      ((Expr.ofString context.schema.sentinel).value row) = some true ↔
      tenant = context.schema.sentinel := by
    change (row.parameter parameter).equals (.string context.schema.sentinel) = some true ↔ _
    rw [bound, Value.equals_string, Value.string.injEq]
  have second : ((context.attr attr).value row).equals ((Expr.ofParameter parameter).value row) =
      some true ↔ row.attr ⟨context.name, [attr]⟩ = .string tenant := by
    change (row.attr ⟨context.name, [attr]⟩).equals (row.parameter parameter) = some true ↔ _
    rw [bound, Value.equals_string]
  change (Predicate.or [_, _]).truth row = _ ↔ _
  rw [Predicate.truth_or]
  simp only [List.mem_cons, List.not_mem_nil, or_false, exists_eq_or_imp, exists_eq_left,
    Predicate.truth_equality, first, second]

end Criterion

/-- A condition without queries inside is copied as it is. -/
theorem Constraint.Copied.eq {model : Model} {criterion : String} {predicate copy : Predicate}
    (copied : Copied model criterion predicate copy) (plain : predicate.subqueries = []) :
    copy = predicate := by
  obtain ⟨before, after, _, run⟩ := copied
  rw [Predicate.mapSubqueries_of_nil _ plain] at run
  exact (Prod.mk.inj (Except.ok.inj run)).1.symm

/-- The condition of a tenant restricts each covered range of an entity with tenants, and it refers to
a parameter that stands for the tenant. -/
theorem Model.constrain_tenant {schema : Schema} {query : Query} {parameters : ParameterMap}
    {registry : Registry} {scope : Scope} {security : SecurityContext} {bound model : Model}
    (bind : Model.bind schema query parameters = .ok bound)
    (constrain : bound.constrain schema registry scope security = .ok model) {localName : String}
    (registered : Criterion.tenant localName ∈ registry.criteria) {range : BoundRange}
    (member : range ∈ bound.ranges) (covered : scope.Covers range) {entity : Entity} {attr : String}
    (known : schema.entity? range.entity = some entity) (owned : entity.lifecycle.tenant = some attr) :
    let context : CriterionContext :=
      ⟨range.name, entity, schema, security, scope.parameterPrefix⟩
    let parameter := context.parameter localName
    (∃ condition, (Criterion.tenantPredicate context attr parameter).Conjunct condition ∧
      model.query.Restricts range.name condition) ∧
    (parameter, .string (security.tenantOr schema.sentinel), .criterion "tenant") ∈
      model.parameters.untyped := by
  intro context parameter
  let value : Value := .string (security.tenantOr schema.sentinel)
  have applies : (Criterion.tenant localName).appliesTo entity = true := by
    change entity.lifecycle.tenant.isSome = true
    rw [owned]
    rfl
  have result : (Criterion.tenant localName).contribute context =
      .ok (some ⟨Criterion.tenantPredicate context attr parameter, [(parameter, value)]⟩) := by
    change Except.ok (entity.lifecycle.tenant.map _) = _
    rw [owned]
    rfl
  constructor
  · obtain ⟨copy, condition, copied, conjunct, restricts⟩ :=
      constrain_restricts bind constrain member covered registered known applies result
    obtain rfl := copied.eq (Criterion.plain_tenantPredicate context attr parameter).subqueries
    exact ⟨condition, conjunct, restricts⟩
  · have pending : Criterion.tenant localName ∈ bound.pending registry :=
      (bind_pending bind registry).symm ▸ registered
    obtain ⟨kept, listed, same⟩ := constrain_supplies bind constrain member covered
      (.intro known pending applies result List.mem_cons_self)
    obtain rfl : kept = value := same.elim id Value.same_string.mp
    exact listed

namespace Engine

variable {engine : Engine}

/-- A caller with a tenant of its own gets the rows that this tenant owns: for each range that criteria
are applied to, of an entity with tenants, the condition that restricts it is true of the tenant's rows
only, and the conjunct that the criterion adds is true of exactly these. The tenant must not be the one
that stands for none, whose callers see all rows. -/
theorem guard_isolates {cache : Option ParseCache} (reachable : engine.Reachable cache)
    {source : String} {parameters : ParameterMap} {security : SecurityContext} {guarded : Guarded}
    (guards : (engine.guard source parameters security cache).1 = .ok guarded) {localName : String}
    (registered : Criterion.tenant localName ∈ engine.registry.criteria) {tenant : String}
    (explicit : security.tenant = some tenant) (other : tenant ≠ engine.schema.sentinel) :
    ∃ query bound, Query.parse source engine.settings.depth = .ok query ∧
      Model.bind engine.schema query parameters = .ok bound ∧
      ∀ range ∈ bound.ranges, engine.settings.scope.Covers range →
        ∀ entity attr, engine.schema.entity? range.entity = some entity →
          entity.lifecycle.tenant = some attr →
            let context : CriterionContext := ⟨range.name, entity, engine.schema, security,
              engine.settings.scope.parameterPrefix⟩
            let conjunct := Criterion.tenantPredicate context attr (context.parameter localName)
            ∃ condition, conjunct.Conjunct condition ∧
              guarded.model.query.Restricts range.name condition ∧
              ∀ row : Row, row.parameters = guarded.parameters →
                (conjunct.truth row = some true ↔ row.attr ⟨range.name, [attr]⟩ = .string tenant) ∧
                (condition.truth row = some true → row.attr ⟨range.name, [attr]⟩ = .string tenant) := by
  obtain ⟨query, bound, parsed, bind, constrain, serialize⟩ := guard_ok reachable guards
  refine ⟨query, bound, parsed, bind, fun range member covered entity attr known owned => ?_⟩
  intro context conjunct
  obtain ⟨⟨condition, among, restricts⟩, supplied⟩ :=
    Model.constrain_tenant bind constrain registered member covered known owned
  have marked : context.parameter localName ∈ guarded.model.query.markers.map (·.value) := by
    have mentioned : (.synthetic (context.parameter localName) : Name) ∈ conjunct.markers :=
      List.mem_cons_self
    exact List.mem_map.mpr ⟨_, restricts.markers (among.markers mentioned), rfl⟩
  obtain ⟨binding, found, value, _⟩ := Model.get?_serialize serialize supplied marked
  refine ⟨condition, among, restricts, fun row same => ?_⟩
  have stands : row.parameter (context.parameter localName) = .string tenant := by
    rw [Row.parameter, same, found, Option.map_some, Option.getD_some, value,
      SecurityContext.tenantOr, explicit]
    rfl
  have exactly : conjunct.truth row = some true ↔ _ := Criterion.truth_tenantPredicate stands
  have only : conjunct.truth row = some true ↔ row.attr ⟨range.name, [attr]⟩ = .string tenant :=
    exactly.trans (or_iff_right other)
  exact ⟨only, fun holds => only.mp (among.truth holds)⟩

/-- The engine of the shop with the criterion of tenants alone. -/
def tenants : Engine :=
  { shop with registry := ⟨[Criterion.tenant], List.pairwise_singleton _ _⟩ }

theorem exists_customers :
    ∃ query bound range, Query.parse "select c from Customer c" tenants.settings.depth = .ok query ∧
      Model.bind tenants.schema query .empty = .ok bound ∧ range ∈ bound.ranges ∧
      range.name = "c" ∧ range.entity = "Customer" ∧ tenants.settings.scope.Covers range := by
  have runs : ((Query.parse "select c from Customer c" tenants.settings.depth).toOption.bind
      fun query => (Model.bind tenants.schema query .empty).toOption.map fun bound =>
        bound.ranges.any fun range => range.name = "c" ∧ range.entity = "Customer" ∧
          range.role = .root ∧ range.depth = 0) = some true := by
    rw [Query.parse_ofList]
    decide +kernel
  obtain ⟨query, parsed, runs⟩ := Option.bind_eq_some_iff.mp runs
  obtain ⟨bound, bind, ranges⟩ := Option.map_eq_some_iff.mp runs
  obtain ⟨range, member, is⟩ := List.any_eq_true.mp ranges
  obtain ⟨named, entity, role, depth⟩ := of_decide_eq_true is
  exact ⟨query, bound, range, ok_of_toOption parsed, ok_of_toOption bind, member, named, entity,
    .inl role, .inl depth⟩

/-- A caller of the tenant acme sees the customers of acme. -/
theorem guard_isolates_acme :
    let security := (SecurityContext.ofPrincipal "ann").withTenant "acme"
    ∃ guarded condition,
      (tenants.guard "select c from Customer c" .empty security tenants.initialCache).1 = .ok guarded ∧
      guarded.text = "select c from Customer c where :criterion_tenantId = 'NO_TENANT' or c.tenant = :criterion_tenantId" ∧
      Criterion.tenant "tenantId" ∈ tenants.registry.criteria ∧ security.tenant = some "acme" ∧
      "acme" ≠ tenants.schema.sentinel ∧ guarded.model.query.Restricts "c" condition ∧
      ∀ row : Row, row.parameters = guarded.parameters → condition.truth row = some true →
        row.attr ⟨"c", ["tenant"]⟩ = .string "acme" := by
  intro security
  have runs : (tenants.guard "select c from Customer c" .empty security
      tenants.initialCache).1.toOption.map (·.model.query.print) = some
        "select c from Customer c where :criterion_tenantId = 'NO_TENANT' or c.tenant = :criterion_tenantId".toList := by
    rw [guard_reachable .initial, Query.parse_ofList, String.toList_ofList]
    decide +kernel
  obtain ⟨guarded, guards, print⟩ := Option.map_eq_some_iff.mp runs
  obtain ⟨query, bound, range, parsed, bind, member, named, ofEntity, covered⟩ := exists_customers
  have other : "acme" ≠ tenants.schema.sentinel := by decide
  have isolates := guard_isolates .initial (ok_of_toOption guards)
    (List.mem_singleton_self (Criterion.tenant "tenantId")) rfl other
  obtain ⟨query', bound', parsed', bind', each⟩ := isolates
  obtain rfl := Except.ok.inj (parsed.symm.trans parsed')
  obtain rfl := Except.ok.inj (bind.symm.trans bind')
  obtain ⟨entity, known, owned⟩ : ∃ entity, tenants.schema.entity? range.entity = some entity ∧
      entity.lifecycle.tenant = some "tenant" := by
    rw [ofEntity]
    exact ⟨_, rfl, rfl⟩
  obtain ⟨condition, _, restricts, rows⟩ := each range member covered entity "tenant" known owned
  rw [named] at restricts rows
  exact ⟨guarded, condition, ok_of_toOption guards, guard_text .initial (ok_of_toOption guards) print,
    List.mem_singleton_self _, rfl, other, restricts, fun row same => (rows row same).2⟩

/-- A caller whose tenant has the name that stands for none sees the rows of other tenants. -/
theorem guard_isolates_not_sentinel :
    let security := (SecurityContext.ofPrincipal "ann").withTenant "NO_TENANT"
    ∃ guarded conjunct condition, ∃ row : Row,
      (tenants.guard "select c from Customer c" .empty security tenants.initialCache).1 = .ok guarded ∧
      Criterion.tenant "tenantId" ∈ tenants.registry.criteria ∧
      security.tenant = some "NO_TENANT" ∧
      (∃ context, conjunct = Criterion.tenantPredicate context "tenant" "criterion_tenantId" ∧
        context.name = "c") ∧
      conjunct.Conjunct condition ∧ guarded.model.query.Restricts "c" condition ∧
      row.parameters = guarded.parameters ∧ conjunct.truth row = some true ∧
      row.attr ⟨"c", ["tenant"]⟩ ≠ .string "NO_TENANT" := by
  intro security
  have runs : (tenants.guard "select c from Customer c" .empty security
      tenants.initialCache).1.toOption.map (fun guarded => guarded.parameters.entries.map
        fun entry => (entry.1, entry.2.value.string?)) =
        some [("criterion_tenantId", some "NO_TENANT")] := by
    rw [guard_reachable .initial, Query.parse_ofList]
    decide +kernel
  obtain ⟨guarded, guards, parameters⟩ := Option.map_eq_some_iff.mp runs
  obtain ⟨query, bound, range, parsed, bind, member, named, ofEntity, covered⟩ := exists_customers
  obtain ⟨query', bound', parsed', bind', constrain, _⟩ := guard_ok .initial (ok_of_toOption guards)
  obtain rfl := Except.ok.inj (parsed.symm.trans parsed')
  obtain rfl := Except.ok.inj (bind.symm.trans bind')
  obtain ⟨entity, known, owned⟩ : ∃ entity, tenants.schema.entity? range.entity = some entity ∧
      entity.lifecycle.tenant = some "tenant" := by
    rw [ofEntity]
    exact ⟨_, rfl, rfl⟩
  obtain ⟨⟨condition, among, restricts⟩, _⟩ := Model.constrain_tenant bind constrain
    (List.mem_singleton_self (Criterion.tenant "tenantId")) member covered known owned
  let row : Row := ⟨fun _ => .string "zeta", guarded.parameters, fun _ => .null, fun _ => none,
    fun _ _ => none, fun _ => false⟩
  have stands : row.parameter "criterion_tenantId" = .string "NO_TENANT" := by
    obtain ⟨⟨name, binding⟩, rest, entries, first, others⟩ := List.map_eq_cons_iff.mp parameters
    obtain ⟨rfl, value⟩ := Prod.mk.inj first
    have found : guarded.parameters.get? "criterion_tenantId" = some binding :=
      ParameterMap.get?_of_mem (entries ▸ List.mem_cons_self)
    rw [Row.parameter, found]
    cases is : binding.value with
    | string text =>
      rw [is] at value
      simp [is, Option.some.inj value]
    | _ =>
      rw [is] at value
      cases value
  refine ⟨guarded, _, condition, row, ok_of_toOption guards, List.mem_singleton_self _, rfl,
    ⟨_, rfl, named⟩, among, named ▸ restricts, rfl, ?_, by simp [row]⟩
  exact (Criterion.truth_tenantPredicate stands).mpr (.inl rfl)

end Engine

/-! ### The parameter of tenants -/

namespace Engine

variable {engine : Engine}

end Engine

end QueryGuard
