import QueryGuard.Proofs.Binding.Resolution
import QueryGuard.Proofs.Rewriting.Capture
/-!
What holds of all models that come from a bound query by applying criteria, any number of times.
-/

set_option autoImplicit false

namespace QueryGuard

namespace Model

/-- The models that a bound query becomes when criteria are applied to it again and again, with the
catalog in which the names were looked up last. -/
inductive Reachable : Schema → Model → Prop where
  | bound {schema : Schema} {query : Query} {parameters : ParameterMap} {model : Model}
      (bind : Model.bind schema query parameters = .ok model) : Reachable schema model
  | constrained {schema catalog : Schema} {model next : Model} {registry : Registry}
      {scope : Scope} {security : SecurityContext} (reachable : Reachable schema model)
      (constrain : model.constrain catalog registry scope security = .ok next) :
      Reachable (if (model.pending registry).isEmpty then schema else catalog) next

/-- The names of a model that any criteria are applied to are looked up anew. -/
theorem constrain_ofTree {catalog : Schema} {model next : Model} {registry : Registry}
    {scope : Scope} {security : SecurityContext}
    (constrain : model.constrain catalog registry scope security = .ok next) :
    model.pending registry = [] ∧ next = model ∨
      model.pending registry ≠ [] ∧ ∃ query parameters applied injected,
        ofTree catalog query parameters applied injected = .ok next := by
  by_cases none : model.pending registry = []
  · rw [constrain_nothing none] at constrain
    exact .inl ⟨none, (Except.ok.inj constrain).symm⟩
  · obtain ⟨applied, runs⟩ := constrain_run none
    rw [runs] at constrain
    obtain ⟨reached, _, looked⟩ := ok_of_bind constrain
    exact .inr ⟨none, _, _, _, _, looked⟩

theorem Reachable.ofTree {schema : Schema} {model : Model} (reachable : Reachable schema model) :
    ∃ query parameters applied injected,
      Model.ofTree schema query parameters applied injected = .ok model := by
  induction reachable with
  | bound bind => exact ⟨_, _, _, _, bind⟩
  | constrained _ constrain ih =>
    rcases constrain_ofTree constrain with ⟨none, rfl⟩ | ⟨some, looked⟩
    · rw [none]
      exact ih
    · rw [List.isEmpty_eq_false_iff.mpr some]
      exact looked

theorem Reachable.nodup_aliases {schema : Schema} {model : Model}
    (reachable : Reachable schema model) : model.aliases.Nodup := by
  obtain ⟨_, _, _, _, result⟩ := reachable.ofTree
  exact ofTree_nodup result

theorem Reachable.aliases_eq {schema : Schema} {model : Model}
    (reachable : Reachable schema model) : model.aliases = model.query.allAliases := by
  obtain ⟨_, _, _, _, result⟩ := reachable.ofTree
  rw [ofTree_query result, ofTree_aliases result]

/-- The aliases of a model are different, and they are those that its query declares. Every path of
the query starts at a range of its level or of one further outside, and the model knows where the
catalog leads from the range's entity. -/
theorem Reachable.resolves {schema : Schema} {model : Model} (reachable : Reachable schema model) :
    model.aliases.Nodup ∧ model.aliases = model.query.allAliases ∧
      ∀ site ∈ model.query.sites, ∃ range ∈ model.ranges,
        range.name = site.path.root.value ∧ range.name ∈ site.visible ∧
          ∃ navigation, model.navigation? site.path = some navigation ∧
            schema.navigate range.entity site.path.attributeNames = .ok navigation := by
  obtain ⟨query, parameters, applied, injected, result⟩ := reachable.ofTree
  rw [ofTree_query result]
  exact ⟨ofTree_nodup result, ofTree_aliases result, ofTree_resolves result⟩

/-- Two criteria are applied to a query one after the other. -/
theorem Reachable.resolves_shop :
    ∃ query bound between model,
      Query.parse "select e from Customer e left join Order m on m.customer = e where e.tenant = 'a'"
        1 = .ok query ∧
      Model.bind .shop query .empty = .ok bound ∧
      bound.constrain .shop ⟨[Criterion.outdone], List.pairwise_singleton _ _⟩ .standard
        .anonymous = .ok between ∧
      between.constrain .shop ⟨[Criterion.softDelete], List.pairwise_singleton _ _⟩ .standard
        .anonymous = .ok model ∧
      model.query.text = "select e from Customer e left join Order m on (m.customer = e) and (m.deleted is null) where (e.tenant = 'a') and (exists (select m1 from Order m1 where m1.customer = e and exists (select m2 from Order m2 where m2.total > m2.total)))" ∧
      model.aliases.Nodup ∧ model.aliases = model.query.allAliases ∧
      ∀ site ∈ model.query.sites, ∃ range ∈ model.ranges,
        range.name = site.path.root.value ∧ range.name ∈ site.visible ∧
          ∃ navigation, model.navigation? site.path = some navigation ∧
            Schema.shop.navigate range.entity site.path.attributeNames = .ok navigation := by
  have runs : ((Query.parse "select e from Customer e left join Order m on m.customer = e where e.tenant = 'a'"
      1).toOption.bind fun query => (Model.bind .shop query .empty).toOption.bind fun bound =>
        (bound.constrain .shop ⟨[Criterion.outdone], List.pairwise_singleton _ _⟩ .standard
          .anonymous).toOption.bind fun between =>
        (between.constrain .shop ⟨[Criterion.softDelete], List.pairwise_singleton _ _⟩ .standard
          .anonymous).toOption.map (·.query.text)) =
      some "select e from Customer e left join Order m on (m.customer = e) and (m.deleted is null) where (e.tenant = 'a') and (exists (select m1 from Order m1 where m1.customer = e and exists (select m2 from Order m2 where m2.total > m2.total)))" := by
    decide +kernel
  obtain ⟨query, parsed, runs⟩ := Option.bind_eq_some_iff.mp runs
  obtain ⟨bound, bind, runs⟩ := Option.bind_eq_some_iff.mp runs
  obtain ⟨between, first, runs⟩ := Option.bind_eq_some_iff.mp runs
  obtain ⟨model, second, text⟩ := Option.map_eq_some_iff.mp runs
  have reachable : Reachable .shop model := by
    have reached :=
      ((Reachable.bound (ok_of_toOption bind)).constrained (ok_of_toOption first)).constrained
        (ok_of_toOption second)
    simpa only [ite_self] using reached
  exact ⟨query, bound, between, model, ok_of_toOption parsed, ok_of_toOption bind,
    ok_of_toOption first, ok_of_toOption second, text, reachable.resolves⟩

end Model

end QueryGuard
