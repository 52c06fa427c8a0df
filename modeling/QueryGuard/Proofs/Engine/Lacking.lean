import QueryGuard.Proofs.Engine.Guarded
import QueryGuard.Proofs.Rewriting.Preservation
/-!
Nothing is shown to a caller of whom too little is known: where a criterion needs an attribute that
the caller lacks, there is an error and no text.
-/

set_option autoImplicit false

namespace QueryGuard

/-! ### What criteria need to know -/

namespace RowFilter

/-- A comparison of the filter is with the attribute of the caller. -/
inductive Mentions (name : String) : RowFilter → Prop where
  | matching {leaf : RowMatch} (same : leaf.contextAttr = name) : Mentions name (.matching leaf)
  | and {filters : List RowFilter} {filter : RowFilter} (member : filter ∈ filters)
      (mentions : Mentions name filter) : Mentions name (.and filters)
  | or {filters : List RowFilter} {filter : RowFilter} (member : filter ∈ filters)
      (mentions : Mentions name filter) : Mentions name (.or filters)

theorem leavesOfAll_eq_flatMap (filters : List RowFilter) :
    leavesOfAll filters = filters.flatMap leaves := by
  induction filters with
  | nil => rfl
  | cons filter rest ih => rw [leavesOfAll, ih, List.flatMap_cons]

theorem Mentions.leaf {name : String} {filter : RowFilter} (mentions : filter.Mentions name) :
    ∃ leaf ∈ filter.leaves, leaf.contextAttr = name := by
  induction mentions with
  | @matching leaf same => exact ⟨leaf, List.mem_singleton_self leaf, same⟩
  | @and filters filter member _ ih =>
    obtain ⟨leaf, among, same⟩ := ih
    rw [leaves, leavesOfAll_eq_flatMap]
    exact ⟨leaf, List.mem_flatMap.mpr ⟨filter, member, among⟩, same⟩
  | @or filters filter member _ ih =>
    obtain ⟨leaf, among, same⟩ := ih
    rw [leaves, leavesOfAll_eq_flatMap]
    exact ⟨leaf, List.mem_flatMap.mpr ⟨filter, member, among⟩, same⟩

end RowFilter

/-- The criterion is for rows of the entity, and needs an attribute that the caller lacks: a policy
that the caller is not exempt from compares with it somewhere in its filter, or a membership is told
by it. Everybody has an identity. -/
inductive Criterion.Lacks (security : SecurityContext) (entity : String) : Criterion → Prop where
  | policy {policy : RowPolicy} {name : String} (target : policy.entity = entity)
      (subject : policy.exempts security = false) (mentions : policy.filter.Mentions name)
      (absent : security.attribute? name = none) : Lacks security entity policy.criterion
  | membership {rule : Membership} (target : rule.target = entity)
      (absent : security.attribute? rule.contextAttr = none)
      (other : rule.contextAttr ≠ "principal") : Lacks security entity rule.criterion

theorem RowPolicy.contribute_lacking {policy : RowPolicy} {context : CriterionContext} {name : String}
    (subject : policy.exempts context.security = false) (mentions : policy.filter.Mentions name)
    (absent : context.security.attribute? name = none) (result : Option Contribution) :
    policy.criterion.contribute context ≠ .ok result := by
  intro contributes
  change (if policy.exempts context.security then _ else _) = _ at contributes
  rw [subject] at contributes
  obtain ⟨contribution, contributes, _⟩ := ok_of_bind contributes
  obtain ⟨parameters, values, _⟩ := ok_of_bind contributes
  obtain ⟨leaf, among, rfl⟩ := mentions.leaf
  obtain ⟨value, _, here⟩ := exists_mem_of_forall₂ (mapM_ok_iff.mp values) leaf among
  rw [leafParameter, absent] at here
  cases here

theorem Membership.contribute_lacking {rule : Membership} {context : CriterionContext}
    (subject : context.security.admin = false)
    (absent : context.security.attribute? rule.contextAttr = none)
    (other : rule.contextAttr ≠ "principal") (result : Option Contribution) :
    rule.criterion.contribute context ≠ .ok result := by
  intro contributes
  change (if context.security.admin then _ else _) = _ at contributes
  have unknown : rule.memberValue? context.security = none := by
    rw [memberValue?, absent, if_neg other, Option.or_none]
  rw [subject, unknown] at contributes
  cases contributes

namespace Criterion.Lacks

variable {security : SecurityContext} {criterion : Criterion}

theorem appliesTo {entity : Entity} (lacks : criterion.Lacks security entity.name) :
    criterion.appliesTo entity = true := by
  cases lacks with
  | policy target => exact beq_iff_eq.mpr target.symm
  | membership target => exact beq_iff_eq.mpr target.symm

theorem contribute_ne_ok {entity : String} (lacks : criterion.Lacks security entity)
    (subject : security.admin = false) {context : CriterionContext}
    (caller : context.security = security) (result : Option Contribution) :
    criterion.contribute context ≠ .ok result := by
  subst caller
  cases lacks with
  | policy _ unexempt mentions absent =>
    exact RowPolicy.contribute_lacking unexempt mentions absent result
  | membership _ absent other =>
    exact Membership.contribute_lacking subject absent other result

end Criterion.Lacks

/-! ### Ranges that criteria are applied to -/

namespace Constraint

variable {setting : Setting} {copied : String → Predicate → Predicate → Prop}

theorem JoinsConstrained.contributed {joins results : List (Join Predicate)}
    {innerParts : List Predicate}
    (constrained : JoinsConstrained setting copied joins results innerParts) :
    ∀ join ∈ joins, ∃ parts, JoinContributed setting copied join.name.value parts := by
  induction constrained with
  | nil => simp
  | inner _ contributed _ ih => exact List.forall_mem_cons.mpr ⟨⟨_, contributed⟩, ih⟩
  | left _ contributed _ _ ih => exact List.forall_mem_cons.mpr ⟨⟨_, contributed⟩, ih⟩

/-- All criteria were asked what they add for the root of a level, and for its joins if the scope names
them. -/
theorem LevelConstrained.contributed {related : Query → Query → Prop} {query result : Query}
    (constrained : LevelConstrained setting copied related query result) :
    (∃ parts, Contributed setting copied query.root.name.value parts) ∧
      (setting.scope.joins = true → ∀ join ∈ query.joins,
        ∃ parts, Contributed setting copied join.name.value parts) ∧
      (setting.scope.subqueries = true → ∀ inner ∈ query.subqueries,
        ∃ added, related inner added) := by
  cases constrained with
  | @intro inside joins rootParts innerParts filter nested kept root joined _ =>
    refine ⟨⟨rootParts, root⟩, fun applied join member => ?_, fun applied inner member => ?_⟩
    · obtain ⟨other, among, name⟩ : ∃ other ∈ inside.joins, other.name = join.name := by
        by_cases subqueries : setting.scope.subqueries
        · obtain ⟨other, among, same⟩ :=
            exists_mem_of_forall₂ (nested subqueries).joins join member
          exact ⟨other, among, same.name⟩
        · obtain rfl := kept (by simpa using subqueries)
          exact ⟨join, member, rfl⟩
      obtain ⟨parts, contributed⟩ := joined.contributed other among
      rw [JoinContributed, if_pos applied, name] at contributed
      exact ⟨parts, contributed⟩
    · obtain ⟨added, _, holds⟩ :=
        exists_mem_of_forall₂ (Query.Replaced.subqueries (nested applied)) inner member
      exact ⟨added, holds⟩

/-- Whatever range criteria are applied to, all of them were asked what they add for it. -/
theorem Constrained.contributed {query result : Query}
    (constrained : Constrained setting copied query result) (binding : Binding.Setting)
    (around : Binding.Visible) :
    ∀ range ∈ Binding.rangesOf (Binding.queryActions binding query around),
      setting.scope.Covers range → ∃ parts, Contributed setting copied range.name parts := by
  induction constrained generalizing around with
  | @intro related query result level _ ih =>
    obtain ⟨root, joined, nested⟩ := level.contributed
    intro range member covered
    rcases covered.cases member with
      named | ⟨applied, join, among, named⟩ | ⟨applied, inner, among, found⟩
    · exact named ▸ root
    · exact named ▸ joined applied join among
    · obtain ⟨added, inside⟩ := nested applied inner among
      exact ih inner added inside _ range found covered

end Constraint

/-- A criterion that lacks what it needs for one of the ranges that it is applied to keeps the criteria
from being applied. -/
theorem Model.constrain_lacking {schema : Schema} {query : Query} {parameters : ParameterMap}
    {registry : Registry} {scope : Scope} {security : SecurityContext} {bound : Model}
    (bind : Model.bind schema query parameters = .ok bound) (subject : security.admin = false)
    {range : BoundRange} (member : range ∈ bound.ranges) (covered : scope.Covers range)
    {criterion : Criterion} (registered : criterion ∈ registry.criteria)
    (lacks : criterion.Lacks security range.entity) (model : Model) :
    bound.constrain schema registry scope security ≠ .ok model := by
  intro constrain
  have constrained : Constraint.Constrained ⟨schema, registry.criteria, scope, security, bound⟩
      (fun _ _ _ => True) bound.query model.query := constrained_of_copies bind constrain
    fun criterion predicate => (Constraint.keeping _).mono
      (Constraint.copies_copied bound criterion predicate) fun _ _ => trivial
  have among := member
  rw [ofTree_ranges (bind_ofTree bind)] at among
  obtain ⟨parts, @⟨other, added, found, each⟩⟩ :=
    constrained.contributed _ _ range among covered
  obtain rfl := Option.some.inj ((range?_of_mem (ofTree_nodup bind) member).symm.trans found)
  obtain ⟨part, _, adds⟩ := exists_mem_of_forall₂ each criterion registered
  have needed : ∀ entity : Entity, schema.entity? range.entity = some entity →
      criterion.Lacks security entity.name := fun entity known => by
    rwa [Schema.entity?_name known]
  cases adds with
  | exempt known other => simp [(needed _ known).appliesTo] at other
  | silent _ _ result => exact lacks.contribute_ne_ok subject rfl none result
  | condition _ _ result => exact lacks.contribute_ne_ok subject rfl (some _) result

namespace Engine

variable {engine : Engine}

/-- An engine that lacks an attribute of the caller, for one of the ranges that criteria are applied to,
answers with an error: if a policy compares with it anywhere in its filter, or if it tells whether the
caller is a member. -/
theorem guard_lacking {cache : Option ParseCache} (reachable : engine.Reachable cache)
    {source : String} {parameters : ParameterMap} {security : SecurityContext} {query : Query}
    {bound : Model} (parsed : Query.parse source engine.settings.depth = .ok query)
    (bind : Model.bind engine.schema query parameters = .ok bound)
    (subject : security.admin = false) {range : BoundRange} (member : range ∈ bound.ranges)
    (covered : engine.settings.scope.Covers range) {criterion : Criterion}
    (registered : criterion ∈ engine.registry.criteria)
    (lacks : criterion.Lacks security range.entity) :
    ∃ error, (engine.guard source parameters security cache).1 = .error error := by
  have answers : (engine.parse source cache).1 = .ok query :=
    (engine.parse_reachable reachable source).trans parsed
  have guards : (engine.guard source parameters security cache).1 =
      engine.guardQuery query parameters security := by
    unfold guard
    simp only [answers]
  rw [guards]
  cases result : engine.guardQuery query parameters security with
  | error error => exact ⟨error, rfl⟩
  | ok guarded =>
    obtain ⟨other, bind', constrain, _⟩ := guardQuery_ok result
    obtain rfl := Except.ok.inj (bind.symm.trans bind')
    exact absurd constrain
      (Model.constrain_lacking bind subject member covered registered lacks guarded.model)

/-- The shop does not say which customers placed an order to a caller without a price. -/
theorem guard_lacking_shop :
    ∃ query bound range criterion,
      Query.parse "select c from Customer c where c.name = 'a' or exists (select o from Order o where o.customer = c)"
        shop.settings.depth = .ok query ∧
      Model.bind .shop query .empty = .ok bound ∧
      range ∈ bound.ranges ∧ range.depth = 1 ∧ shop.settings.scope.Covers range ∧
      criterion ∈ shop.registry.criteria ∧
      criterion.Lacks (SecurityContext.ofPrincipal "ann") range.entity ∧
      ∃ error, (shop.guard "select c from Customer c where c.name = 'a' or exists (select o from Order o where o.customer = c)"
        .empty (.ofPrincipal "ann") shop.initialCache).1 = .error error := by
  have runs : ((Query.parse "select c from Customer c where c.name = 'a' or exists (select o from Order o where o.customer = c)"
      shop.settings.depth).toOption.bind fun query =>
        (Model.bind .shop query .empty).toOption.map fun bound =>
          bound.ranges.any fun range => range.entity = "Order" ∧ range.role = .root ∧
            range.depth = 1) = some true := by
    decide +kernel
  obtain ⟨query, parsed, runs⟩ := Option.bind_eq_some_iff.mp runs
  obtain ⟨bound, bind, ranges⟩ := Option.map_eq_some_iff.mp runs
  obtain ⟨range, member, is⟩ := List.any_eq_true.mp ranges
  obtain ⟨entity, role, depth⟩ := of_decide_eq_true is
  have covered : shop.settings.scope.Covers range := ⟨.inl role, .inr rfl⟩
  let cheap : RowPolicy :=
    ⟨"cheap", "Order", .or [.matching ⟨"total", "price", false⟩, .and []], none⟩
  have registered : cheap.criterion ∈ shop.registry.criteria :=
    List.mem_cons_of_mem _ (List.mem_cons_of_mem _ List.mem_cons_self)
  have lacks : cheap.criterion.Lacks (SecurityContext.ofPrincipal "ann") range.entity :=
    .policy entity.symm rfl (.or List.mem_cons_self (.matching rfl)) rfl
  exact ⟨query, bound, range, cheap.criterion, ok_of_toOption parsed, ok_of_toOption bind, member,
    depth, covered, registered, lacks, guard_lacking .initial (ok_of_toOption parsed)
      (ok_of_toOption bind) rfl member covered registered lacks⟩

end Engine

end QueryGuard
