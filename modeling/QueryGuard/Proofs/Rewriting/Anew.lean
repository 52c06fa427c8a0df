import QueryGuard.Proofs.Rewriting.Namings
import QueryGuard.Proofs.Rewriting.Preservation
/-!
Looking up a model anew changes nothing, so applying no criteria is a special case of applying some.
-/

set_option autoImplicit false

namespace QueryGuard

namespace Binding

variable {schema : Schema} {first second : List (String × String)}

/-- What is known of ranges that the query does not declare does not matter. -/
theorem queryActions_congr (schema : Schema) {query : Query}
    (agree : ∀ name ∈ query.allAliases, first.lookup name = second.lookup name)
    (around : Visible) :
    queryActions ⟨schema, first⟩ query around = queryActions ⟨schema, second⟩ query around :=
  (queryActions_agree agree around).antisymm
    (queryActions_agree (fun name member => (agree name member).symm) around)

/-- Performing an action does not depend on what criteria added. -/
theorem performAll_congr (first second : List (String × String)) (actions : List Action) :
    performAll ⟨schema, first⟩ actions = performAll ⟨schema, second⟩ actions := by
  have each : perform ⟨schema, first⟩ = perform ⟨schema, second⟩ := by
    funext action
    cases action <;> rfl
  rw [performAll, performAll, each]

end Binding

/-- Types that parameters have got make no difference when they get them again. -/
theorem ParameterMap.setTypes_again (parameters : ParameterMap) (types : List (String × ScalarType)) :
    types.foldl (fun parameters (name, type) => parameters.setType name type)
        (types.foldl (fun parameters (name, type) => parameters.setType name type) parameters) =
      types.foldl (fun parameters (name, type) => parameters.setType name type) parameters := by
  apply ParameterMap.eq_of_entries
  rw [entries_setTypes, entries_setTypes, List.map_map]
  refine List.map_congr_left fun (name, binding) _ => ?_
  simp only [Function.comp_apply, ← Option.or_assoc, Option.or_self]

namespace Model

variable {schema : Schema} {query : Query} {parameters : ParameterMap} {applied : List String}
  {injected : List (String × String)} {model : Model}

/-- A range is one that a criterion added if it is known of its alias. -/
theorem ofTree_injects (result : ofTree schema query parameters applied injected = .ok model)
    {name criterion : String} :
    model.Injects name criterion ↔
      name ∈ model.aliases ∧ injected.lookup name = some criterion := by
  have added : ∀ range ∈ model.ranges, range.injectedBy = injected.lookup range.name := by
    rw [ofTree_ranges result]
    exact Binding.injectedBy_queryActions query _
  constructor
  · rintro ⟨range, among, rfl, owner⟩
    exact ⟨List.mem_map_of_mem among, added range among ▸ owner⟩
  · rintro ⟨member, known⟩
    obtain ⟨range, among, rfl⟩ := List.mem_map.mp member
    exact ⟨range, among, rfl, (added range among).trans known⟩

theorem ofTree_lookup (result : ofTree schema query parameters applied injected = .ok model)
    {name : String} (member : name ∈ model.aliases) :
    model.progress.injected.lookup name = injected.lookup name := by
  have distinct : (model.progress.injected.map (·.1)).Nodup :=
    (ofTree_nodup result).sublist model.injected_sublist
  apply Option.ext
  intro criterion
  rw [lookup_iff distinct, mem_injected, ofTree_injects result]
  exact and_iff_right member

/-- Looking up a model anew changes nothing. -/
theorem ofTree_again (result : ofTree schema query parameters applied injected = .ok model) :
    ofTree schema query model.parameters applied model.progress.injected = .ok model := by
  have actions := Binding.queryActions_congr schema
    (fun name (member : name ∈ query.allAliases) => ofTree_lookup result (ofTree_aliases result ▸ member)) ⟨[], 0⟩
  have looked := result
  obtain ⟨⟨⟨⟩, found⟩, run, returned⟩ := ok_of_bind looked
  have again : (Binding.bindQuery ⟨schema, model.progress.injected⟩ query).run ⟨[], [], []⟩ =
      .ok ((), found) := by
    rw [Binding.bindQuery_eq] at run ⊢
    rw [actions, Binding.performAll_congr _ injected]
    exact run
  rw [ofTree, again, ← Except.ok.inj returned]
  exact congrArg (fun parameters => Except.ok (Model.mk query found.ranges found.navigations
    parameters applied)) (parameters.setTypes_again found.types)

open Constraint

/-- Criteria are applied if and only if all that they ask for can be had and the extended query can be
looked up, also if there are none. -/
theorem Reachable.constrain_iff (reachable : Reachable schema model) {registry : Registry}
    {scope : Scope} {security : SecurityContext} {next : Model}
    (standard : ∀ criterion ∈ registry.criteria, criterion.Standard) {naming : Naming}
    (fits : (model.setting schema registry scope security).Fits naming) :
    model.constrain schema registry scope security = .ok next ↔
      (model.setting schema registry scope security).Satisfied ∧
        (model.setting schema registry scope security).lookup naming = .ok next := by
  by_cases none : model.pending registry = []
  · let setting := model.setting schema registry scope security
    have visitsTo : ∀ name, setting.visitsTo name = [] := by
      intro name
      change (model.pending registry).map _ = []
      rw [none]
      rfl
    have visits : setting.visits = [] := List.flatMap_eq_nil_iff.mpr fun name _ => visitsTo name
    have progress : setting.reachedProgress = model.progress := by
      change model.progress.after (requestsOf setting setting.visits) = _
      rw [visits]
      exact model.progress.after_nil
    have parts : setting.placed naming = fun _ => [] := by
      funext name
      rw [Setting.placed, Setting.partsFor_eq, visitsTo]
      exact ite_self _
    have satisfied : setting.Satisfied := by
      rw [Setting.Satisfied, visits]
      exact ⟨fun _ none => (nomatch none), trivial⟩
    have looks : setting.lookup naming = .ok model := by
      obtain ⟨query, parameters, applied, injected, result⟩ := reachable.ofTree
      have names : Model.insertNames setting.criteria model.applied = applied := by
        change Model.insertNames (model.pending registry) model.applied = applied
        rw [none, ofTree_applied result]
        rfl
      rw [Setting.lookup, parts, progress, Query.extended_eq_self fun _ _ => rfl]
      change Model.ofTree schema model.query model.parameters
        (Model.insertNames setting.criteria model.applied) model.progress.injected = _
      rw [names, ofTree_query result]
      exact ofTree_again result
    rw [constrain_nothing none]
    exact ⟨fun same => ⟨satisfied, looks.trans same⟩, fun ⟨_, looked⟩ => looks.symm.trans looked⟩
  · exact reachable.constrain_ok_iff standard none fits

end Model

end QueryGuard
