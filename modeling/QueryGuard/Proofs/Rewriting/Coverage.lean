import QueryGuard.Criterion.Registry
import QueryGuard.Criterion.SoftDelete
import QueryGuard.Proofs.Binding.Ranges
import QueryGuard.Proofs.Rewriting.Steps
import QueryGuard.Syntax.Parser
import QueryGuard.Syntax.Printer
/-!
A constrained model is the bound one with the conditions of all criteria, at all levels that they
are applied to, and nothing else.
-/

set_option autoImplicit false

namespace QueryGuard

open Constraint

/-! ### Queries that nothing is added to -/

theorem Predicate.Replaced.refl {related : Query → Query → Prop} {predicate : Predicate}
    (each : ∀ query ∈ predicate.subqueries, related query query) :
    predicate.Replaced related predicate := by
  induction predicate using Predicate.induction with
  | and operands ih =>
    rw [subqueries_and] at each
    refine .and (List.forall₂_same.mpr fun operand member => ih operand member ?_)
    exact fun query found => each query (List.mem_flatMap.mpr ⟨operand, member, found⟩)
  | or operands ih =>
    rw [subqueries_or] at each
    refine .or (List.forall₂_same.mpr fun operand member => ih operand member ?_)
    exact fun query found => each query (List.mem_flatMap.mpr ⟨operand, member, found⟩)
  | not operand ih => exact .not (ih each)
  | group operand ih => exact .group (ih each)
  | test test => exact .test test
  | inQuery tested query negated => exact .inQuery tested negated (each query List.mem_cons_self)
  | existsIn query negated => exact .existsIn negated (each query List.mem_cons_self)

theorem Query.Replaced.refl {related : Query → Query → Prop} {query : Query}
    (each : ∀ inner ∈ query.subqueries, related inner inner) : query.Replaced related query := by
  have optional : ∀ condition : Option Predicate, (∀ inner ∈ condition, inner ∈ query.conditions) →
      Option.Rel (Predicate.Replaced related) condition condition := by
    intro condition among
    cases condition with
    | none => exact .none
    | some inner =>
      exact .some (.refl fun query found =>
        each query (List.mem_flatMap.mpr ⟨inner, among inner rfl, found⟩))
  refine ⟨rfl, rfl, rfl, ?_, ?_, rfl, ?_, rfl, rfl, rfl, rfl⟩
  · exact List.forall₂_same.mpr fun join member =>
      ⟨rfl, rfl, rfl, rfl, optional join.condition fun _ => Select.mem_of_join member⟩
  · exact optional query.filter fun _ => Select.mem_of_filter
  · exact optional query.having fun _ => Select.mem_of_having

namespace Constraint

variable {setting : Setting} {names : List String}
  {copied : String → Predicate → Predicate → Prop}

theorem contributed_nothing (none : setting.criteria = []) {name : String} {range : BoundRange}
    (found : setting.model.range? name = some range) : Contributed setting copied name [] := by
  have each : List.Forall₂ (Adds setting copied range) setting.criteria [] := by
    rw [none]
    exact .nil
  have contributed := Contributed.intro found each
  exact contributed

theorem joinsConstrained_nothing {joins : List (Join Predicate)}
    (each : ∀ join ∈ joins, JoinContributed setting copied join.name.value []) :
    JoinsConstrained setting copied joins joins [] := by
  induction joins with
  | nil => exact .nil
  | cons join rest ih =>
    have others := ih fun other member => each other (List.mem_cons_of_mem _ member)
    have here := each join List.mem_cons_self
    cases kind : join.kind with
    | inner => exact .inner kind here others
    | left => exact .left kind here (.unchanged join.condition) others

/-- Without criteria nothing changes. -/
theorem constrained_nothing (prepared : Prepared setting names copied)
    (none : setting.criteria = []) {query : Query} (caller : query.allAliases ⊆ names) :
    Constrained setting copied query query := by
  induction size : query.nesting using Nat.strongRecOn generalizing query with
  | ind size ih =>
    have contributed : ∀ name ∈ query.allAliases, Contributed setting copied name [] := by
      intro name member
      obtain ⟨range, found, _⟩ := prepared.written name (caller member)
      exact contributed_nothing none found
    have joined : JoinsConstrained setting copied query.joins query.joins [] := by
      apply joinsConstrained_nothing
      intro join member
      unfold JoinContributed
      split
      · exact contributed _ (query.join_mem_allAliases member)
      · rfl
    have inside : query.Replaced (fun inner added => inner = added ∧ inner ∈ query.subqueries)
        query := .refl fun inner member => ⟨rfl, member⟩
    refine .intro (.intro (fun _ => inside) (fun _ => rfl)
      (contributed _ query.root_mem_allAliases) joined (.unchanged query.filter)) ?_
    rintro inner _ ⟨rfl, member⟩
    have smaller := Query.nesting_lt member
    exact ih inner.nesting (size ▸ smaller)
      (fun name found => caller (Query.allAliases_subset member found)) rfl

/-- The condition is copied while all aliases of the model are in use: the queries inside it get
aliases of their own. -/
def Copied (model : Model) (criterion : String) (predicate copy : Predicate) : Prop :=
  ∃ before after : Progress, before.Spares model.aliases ∧
    (predicate.mapSubqueries fun query => freshen criterion query.nesting query).run before =
      .ok (copy, after)

theorem copies_copied (model : Model) (criterion : String) (predicate : Predicate) :
    (keeping (Progress.Spares model.aliases)).of
      (predicate.mapSubqueries fun query => freshen criterion query.nesting query)
      (Copied model criterion predicate) := by
  intro before copy after run spares
  have keeps := predicate.mapSubqueries_ensures (keeping (Progress.Spares model.aliases))
    fun query _ => freshen_keeps criterion query.nesting query
  exact ⟨⟨before, after, spares, run⟩, (keeps before copy after run spares).2⟩

end Constraint

namespace Model

variable {schema catalog : Schema} {query : Query} {parameters : ParameterMap}
  {registry : Registry} {scope : Scope} {security : SecurityContext} {bound model : Model}

theorem ofTree_query {applied : List String} {injected : List (String × String)}
    (result : ofTree schema query parameters applied injected = .ok model) :
    model.query = query := by
  obtain ⟨_, _, returned⟩ := ok_of_bind result
  rw [← Except.ok.inj returned]

theorem constrain_nothing {model : Model} (none : model.pending registry = []) :
    model.constrain catalog registry scope security = .ok model := by
  rw [Model.constrain, none]
  rfl

/-- Pending criteria are applied level by level, and then the tree is looked up anew. -/
theorem constrain_run {model : Model} (some : model.pending registry ≠ []) :
    ∃ applied, model.constrain catalog registry scope security =
      (constrainLevels ⟨catalog, model.pending registry, scope, security, model⟩
        model.query.nesting model.query).run model.progress >>= fun reached =>
          ofTree catalog reached.1 reached.2.parameters applied reached.2.injected := by
  unfold Model.constrain
  split
  · contradiction
  · exact ⟨_, rfl⟩

/-! ### Bound queries -/

/-- No criterion was applied to a bound query yet. -/
theorem bind_pending (bind : Model.bind schema query parameters = .ok bound) (registry : Registry) :
    bound.pending registry = registry.criteria := by
  obtain ⟨_, applied, _⟩ := bind_ranges bind
  apply List.filter_eq_self.mpr
  intro criterion _
  simp [isApplied, applied]

/-- The aliases of a bound query are those of ranges that the caller wrote. -/
theorem bind_range? (bind : Model.bind schema query parameters = .ok bound) :
    ∀ name ∈ bound.aliases, ∃ range, bound.range? name = some range ∧ range.injectedBy = none := by
  obtain ⟨_, _, _, written⟩ := bind_ranges bind
  intro name member
  obtain ⟨range, among, named⟩ := List.mem_map.mp member
  cases found : bound.range? name with
  | none =>
    have missing := List.find?_eq_none.mp found range among
    simp [named] at missing
  | some other => exact ⟨other, rfl, written other (List.mem_of_find?_eq_some found)⟩

theorem bind_spares (bind : Model.bind schema query parameters = .ok bound) :
    bound.progress.Spares bound.aliases := by
  obtain ⟨_, _, _, written⟩ := bind_ranges bind
  refine ⟨List.Subset.refl _, fun entry member => ?_⟩
  obtain ⟨range, among, injected⟩ := List.mem_filterMap.mp member
  simp [written range among] at injected

/-- Whatever is known of the copies, a constrained model is the bound one with the copies added. -/
theorem constrained_of_copies {copied : String → Predicate → Predicate → Prop}
    (bind : Model.bind schema query parameters = .ok bound)
    (constrain : bound.constrain catalog registry scope security = .ok model)
    (copies : ∀ criterion predicate, (keeping (Progress.Spares bound.aliases)).of
      (Predicate.mapSubqueries (fun query => freshen criterion query.nesting query) predicate)
      (copied criterion predicate)) :
    Constrained ⟨catalog, registry.criteria, scope, security, bound⟩ copied bound.query
      model.query := by
  have prepared : Prepared ⟨catalog, registry.criteria, scope, security, bound⟩ bound.aliases
      copied := ⟨bind_range? bind, fun criterion _ => copies criterion.name⟩
  have caller : bound.query.allAliases ⊆ bound.aliases :=
    (bind_ranges bind).2.2.1 ▸ List.Subset.refl _
  by_cases none : bound.pending registry = []
  · rw [constrain_nothing none] at constrain
    obtain rfl := Except.ok.inj constrain
    rw [bind_pending bind] at none
    exact constrained_nothing prepared none caller
  · obtain ⟨applied, runs⟩ := constrain_run none
    rw [runs, bind_pending bind] at constrain
    obtain ⟨reached, run, rebound⟩ := ok_of_bind constrain
    have ensures := constrainLevels_ensures prepared bound.query.nesting bound.query
      (Nat.le_refl _) caller
    rw [ofTree_query rebound]
    exact (ensures bound.progress reached.1 reached.2 run (bind_spares bind)).1

/-- A constrained model is the bound one with the conditions that the criteria contribute added:
for the root and for inner joins to the WHERE clause, for left joins to the joins' own conditions,
at the outermost level and in all queries inside conditions that the scope names. -/
theorem constrain_covers (bind : Model.bind schema query parameters = .ok bound)
    (constrain : bound.constrain catalog registry scope security = .ok model) :
    Constrained ⟨catalog, registry.criteria, scope, security, bound⟩ (Copied bound) bound.query
      model.query :=
  constrained_of_copies bind constrain (copies_copied bound)

end Model

/-- Customers of tenants, and their orders, which may be deleted. -/
def Schema.shop : Schema :=
  let id : Attribute := ⟨"id", .scalar .uuid, .single, false⟩
  (empty.insert
    ⟨"Customer", "id", [id, ⟨"name", .scalar .string, .single, false⟩,
      ⟨"tenant", .scalar .string, .single, false⟩], ⟨none, some "tenant"⟩⟩).insert
    ⟨"Order", "id", [id, ⟨"total", .scalar .decimal, .single, false⟩,
      ⟨"customer", .reference "Customer", .single, false⟩,
      ⟨"deleted", .scalar .timestamp, .single, true⟩], ⟨some "deleted", none⟩⟩

/-- Deleted orders are left out of a left join, an inner join and a query inside. -/
theorem Model.constrain_covers_shop :
    ∃ query bound model,
      Query.parse "select c from Customer c left join Order o on o.customer = c join Order p on p.customer = c where c.name = 'a' or exists (select q from Order q where q.total > p.total)"
        1 = .ok query ∧
      Model.bind .shop query .empty = .ok bound ∧
      bound.constrain .shop ⟨[Criterion.softDelete], List.pairwise_singleton _ _⟩ .standard
        .anonymous = .ok model ∧
      model.query.text = "select c from Customer c left join Order o on (o.customer = c) and (o.deleted is null) join Order p on p.customer = c where (c.name = 'a' or exists (select q from Order q where (q.total > p.total) and (q.deleted is null))) and (p.deleted is null)" ∧
      Constrained ⟨.shop, [Criterion.softDelete], .standard, .anonymous, bound⟩ (Copied bound)
        bound.query model.query := by
  have runs : ((Query.parse "select c from Customer c left join Order o on o.customer = c join Order p on p.customer = c where c.name = 'a' or exists (select q from Order q where q.total > p.total)"
      1).toOption.bind fun query => (Model.bind .shop query .empty).toOption.bind fun bound =>
        (bound.constrain .shop ⟨[Criterion.softDelete], List.pairwise_singleton _ _⟩ .standard
          .anonymous).toOption.map (·.query.text)) =
      some "select c from Customer c left join Order o on (o.customer = c) and (o.deleted is null) join Order p on p.customer = c where (c.name = 'a' or exists (select q from Order q where (q.total > p.total) and (q.deleted is null))) and (p.deleted is null)" := by
    decide +kernel
  obtain ⟨query, parsed, runs⟩ := Option.bind_eq_some_iff.mp runs
  obtain ⟨bound, bind, runs⟩ := Option.bind_eq_some_iff.mp runs
  obtain ⟨model, constrain, text⟩ := Option.map_eq_some_iff.mp runs
  exact ⟨query, bound, model, ok_of_toOption parsed, ok_of_toOption bind,
    ok_of_toOption constrain, text,
    Model.constrain_covers (ok_of_toOption bind) (ok_of_toOption constrain)⟩

end QueryGuard
