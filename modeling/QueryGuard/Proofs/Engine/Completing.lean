import QueryGuard.Proofs.Criterion.Lifecycle
import QueryGuard.Proofs.Engine.Serialization
import QueryGuard.Proofs.Rewriting.Anew
import QueryGuard.Proofs.Rewriting.Granting
import QueryGuard.Proofs.Siblings.Rereading
/-!
The criteria of the lifecycle break no query: if a query can be bound and has all of its parameters, it
can be guarded.
-/

set_option autoImplicit false

namespace QueryGuard

open Constraint

namespace Model

variable {schema : Schema} {query : Query} {parameters : ParameterMap} {registry : Registry}
  {scope : Scope} {security : SecurityContext} {bound : Model} {localName : String}

/-- The criteria of the lifecycle contribute conditions on their ranges alone. -/
theorem plain_lifecycle (bind : Model.bind schema query parameters = .ok bound)
    (lifecycle : ∀ criterion ∈ registry.criteria, criterion.Lifecycle localName) {request : Request}
    (member : request ∈ (bound.setting schema registry scope security).requests) :
    request.contribution.predicate.Plain request.range := by
  obtain ⟨range, _, named, _, criterion, pending, _, entity, _, _, result⟩ :=
    bind_requests bind member
  rw [← named]
  exact (lifecycle criterion (List.mem_filter.mp pending).1).plain result

/-- What the criteria of the lifecycle add for the range of an alias is what they contribute for it. -/
theorem mem_placed_lifecycle (bind : Model.bind schema query parameters = .ok bound)
    (lifecycle : ∀ criterion ∈ registry.criteria, criterion.Lifecycle localName) {naming : Naming}
    {name : String} {part : Predicate}
    (member : part ∈ (bound.setting schema registry scope security).placed naming name) :
    ∃ request ∈ (bound.setting schema registry scope security).requests,
      request.range = name ∧ part = request.contribution.predicate := by
  rw [Setting.placed] at member
  split at member
  · rename_i reached
    obtain ⟨request, among, rfl⟩ := List.mem_map.mp member
    have asked : request ∈ (bound.setting schema registry scope security).requests := by
      rw [Setting.requests_eq]
      exact List.mem_flatMap.mpr ⟨name, reached, among⟩
    obtain ⟨visit, visited, _, place, _⟩ := Setting.request_of_mem among
    obtain ⟨criterion, _, rfl⟩ := List.mem_map.mp visited
    have plain := plain_lifecycle bind lifecycle asked
    exact ⟨request, asked, place, Contribution.Simple.worded_plain plain _⟩
  · cases member

/-- The criteria of the lifecycle ask for one parameter at most. -/
theorem claims_lifecycle (bind : Model.bind schema query parameters = .ok bound)
    (lifecycle : ∀ criterion ∈ registry.criteria, criterion.Lifecycle localName) {claim : Claim}
    (member : claim ∈ claimsOf (bound.setting schema registry scope security)
      (bound.setting schema registry scope security).visits) :
    claim = ⟨"tenant", scope.parameterPrefix ++ localName,
      .string (security.tenantOr schema.sentinel)⟩ := by
  obtain ⟨range, _, _, @⟨entity, criterion, contribution, parameter, _, pending, _, result, among⟩⟩ :=
    (bind_claims bind).mp member
  obtain ⟨named, rfl⟩ :=
    (lifecycle criterion (List.mem_filter.mp pending).1).eq_of_mem_parameters result among
  rw [named]
  rfl

/-- Nobody else's parameter is asked for. -/
theorem satisfied_lifecycle (bind : Model.bind schema query parameters = .ok bound)
    (lifecycle : ∀ criterion ∈ registry.criteria, criterion.Lifecycle localName)
    (new : scope.parameterPrefix ++ localName ∉ parameters.names)
    (unmarked : scope.parameterPrefix ++ localName ∉ query.markers.map (·.value)) :
    (bound.setting schema registry scope security).Satisfied := by
  let setting := bound.setting schema registry scope security
  have same : ∀ claim ∈ claimsOf setting setting.visits, claim = _ :=
    fun _ member => claims_lifecycle bind lifecycle member
  have free : scope.parameterPrefix ++ localName ∉ bound.parameters.names := by
    rwa [ParameterMap.names_eq_of_untyped (ofTree_untyped (bind_ofTree bind))]
  have markers : setting.markers = query.markers.map (·.value) := by
    change bound.query.markers.map _ = _
    rw [(bind_ranges bind).1, query.markers_separateSiblings]
  refine ⟨fun visit visited => ?_, (ParameterMap.accepts_iff ?_).mpr ⟨?_, ?_⟩⟩
  · obtain ⟨name, reached, visited⟩ := List.mem_flatMap.mp visited
    obtain ⟨criterion, pending, rfl⟩ := List.mem_map.mp visited
    obtain ⟨range, listed, rfl, _⟩ := (bind_reached bind).mp reached
    obtain ⟨entity, known⟩ := ofTree_entities bind range listed
    rw [Visit.Answered, bind_offer bind listed, known]
    dsimp only
    split
    · exact (lifecycle criterion (List.mem_filter.mp pending).1).contribute_ok _
    · exact ⟨none, rfl⟩
  · intro first member second member' _ _
    rw [same first member, same second member']
  · intro claim member
    rw [same claim member]
    refine ⟨fun kept owner listed => ?_, fun marked => ?_⟩
    · exact absurd listed (ParameterMap.not_mem_untyped free kept owner)
    · exact absurd (markers ▸ marked) unmarked
  · refine List.pairwise_of_forall_mem_list fun first member second member' => ?_
    rw [same first member, same second member']
    exact fun _ _ => ⟨rfl, beq_self_eq_true _⟩

/-- The criteria of the lifecycle add no ranges. -/
theorem injected_lifecycle (bind : Model.bind schema query parameters = .ok bound)
    (lifecycle : ∀ criterion ∈ registry.criteria, criterion.Lifecycle localName) :
    (bound.setting schema registry scope security).reachedProgress.injected = [] := by
  let setting := bound.setting schema registry scope security
  have unlabelled : setting.requests.filter (·.label?.isSome) = [] := by
    refine List.filter_eq_nil_iff.mpr fun request member => ?_
    rw [Request.label?, Contribution.Simple.label?_plain (plain_lifecycle bind lifecycle member)]
    exact Bool.false_ne_true
  have draws : drawn setting.model.progress.taken setting.requests = [] := by
    rw [← List.map_eq_nil_iff, drawn_requests, unlabelled]
  have written : setting.model.progress.injected = [] := by
    refine List.filterMap_eq_nil_iff.mpr fun range member => ?_
    rw [(bind_ranges bind).2.2.2 range member]
    rfl
  rw [Setting.reachedProgress, Progress.after, draws, written]
  rfl

/-- The query with the conditions of the lifecycle can be looked up in a checked catalog. -/
theorem lookup_lifecycle (bind : Model.bind schema query parameters = .ok bound)
    (checked : schema.check = .ok ())
    (lifecycle : ∀ criterion ∈ registry.criteria, criterion.Lifecycle localName) (naming : Naming) :
    ∃ model, (bound.setting schema registry scope security).lookup naming = .ok model := by
  let setting := bound.setting schema registry scope security
  let binding : Binding.Setting := ⟨schema, []⟩
  obtain ⟨holds, distinct⟩ := ofTree_ok_iff.mp ⟨bound, bind_ofTree bind⟩
  have plain : ∀ name, ∀ part ∈ setting.placed naming name, part.allAliases = [] := by
    intro name part member
    obtain ⟨request, asked, _, rfl⟩ := mem_placed_lifecycle bind lifecycle member
    rw [Predicate.allAliases_eq, (plain_lifecycle bind lifecycle asked).subqueries]
    rfl
  have extendable : Binding.Extendable binding (setting.placed naming) (·.Holds schema)
      (Binding.rangesOf (Binding.queryActions binding bound.query ⟨[], 0⟩)) := by
    intro range declared part member visible shows
    obtain ⟨request, asked, place, rfl⟩ := mem_placed_lifecycle bind lifecycle member
    obtain ⟨other, listed, named, _, criterion, pending, _, entity, known, _, result⟩ :=
      bind_requests bind asked
    rw [← ofTree_ranges (bind_ofTree bind)] at declared
    obtain rfl := eq_of_name (ofTree_nodup bind) listed declared (named.trans place)
    exact (lifecycle criterion (List.mem_filter.mp pending).1).holds checked rfl known result shows
  refine ofTree_ok_iff.mpr ⟨?_, ?_⟩
  · rw [injected_lifecycle bind lifecycle]
    exact Binding.queryActions_passes distinct _ extendable holds
  · change (bound.query.extended (setting.placed naming)).allAliases.Nodup
    rwa [Query.allAliases_extended plain]

/-- The criteria of the lifecycle can be applied to a bound query, and the result has the caller's
parameters and theirs. -/
theorem constrain_lifecycle (bind : Model.bind schema query parameters = .ok bound)
    (checked : schema.check = .ok ())
    (lifecycle : ∀ criterion ∈ registry.criteria, criterion.Lifecycle localName)
    (new : scope.parameterPrefix ++ localName ∉ parameters.names)
    (supplied : ∀ marker ∈ query.markers, marker.value ∈ parameters.names) :
    ∃ model, bound.constrain schema registry scope security = .ok model ∧
      ∀ marker ∈ model.query.markers, marker.value ∈ model.parameters.names := by
  let setting := bound.setting schema registry scope security
  have standard : ∀ criterion ∈ registry.criteria, criterion.Standard :=
    fun criterion member => (lifecycle criterion member).standard
  have unmarked : scope.parameterPrefix ++ localName ∉ query.markers.map (·.value) := by
    intro marked
    obtain ⟨marker, member, named⟩ := List.mem_map.mp marked
    exact new (named ▸ supplied marker member)
  have reachable : Reachable schema bound := .bound bind
  obtain ⟨naming, fits⟩ := reachable.exists_fits schema registry scope security
  have satisfied : setting.Satisfied := satisfied_lifecycle bind lifecycle new unmarked
  obtain ⟨model, looks⟩ : ∃ model, setting.lookup naming = .ok model :=
    lookup_lifecycle bind checked lifecycle naming
  have constrain := (reachable.constrain_iff standard fits).mpr ⟨satisfied, looks⟩
  refine ⟨model, constrain, fun marker member => ?_⟩
  have names : model.parameters.names =
      (bound.parameters.grantAll (claimsOf setting setting.visits)).names :=
    ParameterMap.names_eq_of_untyped (constrain_grants bind constrain).2
  have caller : bound.parameters.names = parameters.names :=
    ParameterMap.names_eq_of_untyped (ofTree_untyped (bind_ofTree bind))
  have extended : model.query = bound.query.extended (setting.placed naming) :=
    ofTree_query looks
  rw [extended, Query.mem_markers_extended, (bind_ranges bind).1, query.markers_separateSiblings]
    at member
  rw [names, ParameterMap.mem_names_grantAll, caller]
  refine member.imp (supplied marker) fun added => ?_
  obtain ⟨part, among, marked⟩ := List.mem_flatMap.mp added
  obtain ⟨name, _, placed⟩ := List.mem_flatMap.mp among
  obtain ⟨request, asked, _, rfl⟩ := mem_placed_lifecycle bind lifecycle placed
  obtain ⟨range, listed, _, covered, criterion, pending, owner, entity, known, applies, result⟩ :=
    bind_requests bind asked
  have mentioned := (standard criterion (List.mem_filter.mp pending).1).markers_subset result
    (List.mem_map_of_mem marked)
  obtain ⟨parameter, listed', named⟩ := List.mem_map.mp mentioned
  have claimed := (bind_claims bind).mpr
    ⟨range, listed, covered, .intro known pending applies result listed'⟩
  exact List.mem_map.mpr ⟨_, claimed, named⟩

end Model

namespace Engine

/-- If the catalog is one that passed its check, and all criteria are those of the lifecycle, then every
text that can be parsed and bound can be guarded, provided that the caller has a parameter for each of
its markers and none of the name that the tenant's parameter gets. -/
theorem guard_lifecycle {engine : Engine} {cache : Option ParseCache}
    (reachable : engine.Reachable cache) {entities : List Entity} {schema : Schema}
    (accepted : Schema.ofEntities entities = .ok schema) {sentinel : String}
    (catalog : engine.schema = schema.withSentinel sentinel) {localName : String}
    (lifecycle : ∀ criterion ∈ engine.registry.criteria, criterion.Lifecycle localName)
    {source : String} {query : Query} (parsed : Query.parse source engine.settings.depth = .ok query)
    {parameters : ParameterMap} {bound : Model}
    (bind : Model.bind engine.schema query parameters = .ok bound)
    (supplied : ∀ marker ∈ query.markers, marker.value ∈ parameters.names)
    (new : engine.settings.scope.parameterPrefix ++ localName ∉ parameters.names)
    (security : SecurityContext) :
    ∃ guarded, (engine.guard source parameters security cache).1 = .ok guarded := by
  have checked : engine.schema.check = .ok () := by
    rw [catalog, Schema.check_withSentinel]
    exact Schema.ofEntities_check accepted
  obtain ⟨model, constrain, names⟩ :=
    Model.constrain_lifecycle bind checked lifecycle new supplied
  obtain ⟨serialized, serialize⟩ := Model.serialize_succeeds names
  exact ⟨_, guard_of_ok reachable parsed bind constrain serialize⟩

/-- The engine of the shop with the criteria of the lifecycle. -/
def owners : Engine :=
  { shop with registry := ⟨[Criterion.tenant, Criterion.softDelete], by decide⟩ }

/-- A text with a marker of its own, and with a query inside a condition. -/
theorem guard_lifecycle_owners :
    ∃ query bound guarded,
      Schema.ofEntities Schema.shop.entities = .ok .shop ∧
      owners.schema = Schema.shop.withSentinel Schema.defaultSentinel ∧
      (∀ criterion ∈ owners.registry.criteria, criterion.Lifecycle "tenantId") ∧
      Query.parse "select c from Customer c where c.name = :n and exists (select m from Order m where m.customer = c)"
        owners.settings.depth = .ok query ∧
      Model.bind owners.schema query (ParameterMap.empty.insert "n" (.of .caller (.string "b"))) =
        .ok bound ∧
      (∀ marker ∈ query.markers, marker.value ∈
        (ParameterMap.empty.insert "n" (.of .caller (.string "b"))).names) ∧
      owners.settings.scope.parameterPrefix ++ "tenantId" ∉
        (ParameterMap.empty.insert "n" (.of .caller (.string "b"))).names ∧
      (owners.guard "select c from Customer c where c.name = :n and exists (select m from Order m where m.customer = c)"
        (ParameterMap.empty.insert "n" (.of .caller (.string "b"))) .anonymous
        owners.initialCache).1 = .ok guarded := by
  let parameters := ParameterMap.empty.insert "n" (.of .caller (.string "b"))
  have runs : ((Query.parse "select c from Customer c where c.name = :n and exists (select m from Order m where m.customer = c)"
      owners.settings.depth).toOption.bind fun query =>
        if query.markers.all fun marker => marker.value ∈ parameters.names then
          (Model.bind owners.schema query parameters).toOption.map fun bound => (query, bound)
        else none).isSome = true := by
    rw [Query.parse_ofList]
    decide +kernel
  obtain ⟨⟨query, bound⟩, runs⟩ := Option.isSome_iff_exists.mp runs
  obtain ⟨query', parsed, runs⟩ := Option.bind_eq_some_iff.mp runs
  split at runs
  · rename_i marked
    obtain ⟨bound', bind, same⟩ := Option.map_eq_some_iff.mp runs
    obtain ⟨rfl, rfl⟩ := Prod.mk.inj same
    have accepted : Schema.ofEntities Schema.shop.entities = .ok .shop := rfl
    have lifecycle : ∀ criterion ∈ owners.registry.criteria, criterion.Lifecycle "tenantId" :=
      List.forall_mem_cons.mpr ⟨.tenant, List.forall_mem_singleton.mpr .softDelete⟩
    have supplied : ∀ marker ∈ query'.markers, marker.value ∈ parameters.names :=
      fun marker member => of_decide_eq_true (List.all_eq_true.mp marked marker member)
    have new : owners.settings.scope.parameterPrefix ++ "tenantId" ∉ parameters.names := by
      decide
    obtain ⟨guarded, guards⟩ := guard_lifecycle .initial accepted
      (rfl : owners.schema = Schema.shop.withSentinel Schema.defaultSentinel) lifecycle
      (ok_of_toOption parsed) (ok_of_toOption bind) supplied new .anonymous
    exact ⟨query', bound', guarded, accepted, rfl, lifecycle, ok_of_toOption parsed,
      ok_of_toOption bind, supplied, new, guards⟩
  · cases runs

end Engine

end QueryGuard
