import Mathlib.Data.List.Perm.Subperm
import QueryGuard.Proofs.Rewriting.Anew
import QueryGuard.Proofs.Rewriting.Dividing
import QueryGuard.Proofs.Rewriting.Inventory
import QueryGuard.Proofs.Rewriting.Reordering
/-!
Criteria that are applied one part after the other. In a model that criteria were applied to, further criteria
find the ranges that they would have found before, and the names of parameters that are new to them were new
before.
-/

set_option autoImplicit false

namespace QueryGuard

namespace Binding

variable {setting : Setting} {first all : String → List Predicate}

theorem flatMap_subperm {α β : Type} {items others : List α} (f : α → List β)
    (among : items.Subperm others) : (items.flatMap f).Subperm (others.flatMap f) := by
  obtain ⟨kept, same, among⟩ := among
  exact ⟨kept.flatMap f, same.flatMap_right f, among.flatMap f⟩

theorem filterMap_subperm {α β : Type} {items others : List α} (f : α → Option β)
    (among : items.Subperm others) : (items.filterMap f).Subperm (others.filterMap f) := by
  obtain ⟨kept, same, among⟩ := among
  exact ⟨kept.filterMap f, same.filterMap f, among.filterMap f⟩

/-- More conditions for ranges add actions. -/
theorem queryActions_subperm (each : ∀ name, (first name).Subperm (all name)) (query : Query)
    (around : Visible) : (queryActions setting (query.extended first) around).Subperm
      (queryActions setting (query.extended all) around) := by
  have congruent : Congruent List.Subperm := ⟨List.Subperm.refl, List.Subperm.append⟩
  let nothing (_ : String) : List Predicate := []
  have unchanged : ∀ name, ∀ part ∈ first name, part.extended nothing = part :=
    fun _ _ _ => Predicate.extended_eq_self fun _ _ => rfl
  have twice : (queryActions setting ((query.extended first).extended nothing) around).Subperm
      (queryActions setting (query.extended all) around) := by
    refine queryActions_extended congruent unchanged (fun names visible => ?_) query around
    have none : names.flatMap nothing = [] := List.flatMap_eq_nil_iff.mpr fun _ _ => rfl
    rw [none, List.append_nil, List.flatMap_assoc, List.flatMap_assoc]
    exact congruent.flatMap fun name _ => flatMap_subperm _ (each name)
  rwa [Query.extended_eq_self fun _ _ => rfl] at twice

end Binding

namespace Constraint

namespace Setting

variable {setting : Setting} {naming : Naming} {next : Model}

/-- The requests of a setting, by their ranges. -/
theorem mem_requests {request : Request} :
    request ∈ setting.requests ↔ ∃ name ∈ setting.reached, request ∈ setting.requestsFor name := by
  rw [requests_eq, List.mem_flatMap]
  refine exists_congr fun name => and_congr_right fun visited => ?_
  rw [requestsFor, if_pos visited]

theorem mem_wording {part : Predicate} {name : String} :
    part ∈ naming.wording setting.requestsFor name ↔
      ∃ request ∈ setting.requestsFor name, request.worded naming = part :=
  List.mem_map

/-- A condition for a range declares the range that is added for it, if one is. -/
theorem Usual.allAliases_worded (usual : setting.Usual) {request : Request}
    (member : request ∈ setting.requests) (naming : Naming) :
    (request.worded naming).allAliases = (naming.used request).toList := by
  rw [Request.worded, (usual.simple member).allAliases_worded, Naming.used, Request.label?,
    Option.toList_map]

/-- The query inside a condition for a range starts with the range that is added. -/
theorem Usual.root_worded (usual : setting.Usual) {request : Request}
    (member : request ∈ setting.requests) (naming : Naming) :
    ∀ inner ∈ (request.worded naming).subqueries, naming.used request =
      some inner.root.name.value := by
  intro inner among
  have listed : inner.root.name.value ∈ (naming.used request).toList := by
    rw [← usual.allAliases_worded member, Predicate.allAliases_eq]
    exact List.mem_flatMap.mpr ⟨inner, among, inner.root_mem_allAliases⟩
  exact Option.mem_toList.mp listed

section

variable (reachable : Model.Reachable setting.schema setting.model)

include reachable

/-- The aliases of the extended query are those of the model and those of the added ranges. -/
theorem mem_aliases_extended (usual : setting.Usual) (naming : Naming) {name : String} :
    name ∈ (setting.model.query.extended (naming.wording setting.requestsFor)).allAliases ↔
      name ∈ setting.model.aliases ∨
        ∃ request ∈ setting.requests, naming.used request = some name := by
  rw [Query.mem_allAliases_extended, ← reachable.aliases_eq]
  refine or_congr_right ?_
  simp only [List.mem_flatMap, mem_wording]
  constructor
  · rintro ⟨_, ⟨range, _, request, asked, rfl⟩, declared⟩
    have member := (of_mem_requestsFor asked).1
    rw [usual.allAliases_worded member] at declared
    exact ⟨request, member, Option.mem_toList.mp declared⟩
  · rintro ⟨request, member, used⟩
    obtain ⟨range, visited, asked⟩ := mem_requests.mp member
    refine ⟨_, ⟨range, ?_, request, asked, rfl⟩, ?_⟩
    · exact reachable.aliases_eq ▸ (setting.model.query.reached_sublist _ _).subset visited
    · rw [usual.allAliases_worded member]
      exact Option.mem_toList.mpr used

/-- What is known of the ranges of the model does not change. -/
theorem lookup_kept (fits : setting.Fits naming) {name : String}
    (member : name ∈ setting.model.aliases) :
    setting.reachedProgress.injected.lookup name =
      setting.model.progress.injected.lookup name := by
  have distinct : (setting.model.progress.injected.map (·.1)).Nodup :=
    reachable.nodup_aliases.sublist setting.model.injected_sublist
  apply Option.ext
  intro criterion
  rw [(fits.lists reachable.nodup_aliases).lookup_model, lookup_iff distinct, Model.mem_injected]
  exact fun request asked used => fits.used_new reachable.nodup_aliases asked used member

variable (looked : setting.lookup naming = .ok next)

omit reachable in
include looked in
theorem lookup_ofTree : Model.ofTree setting.schema
    (setting.model.query.extended (naming.wording setting.requestsFor))
    setting.reachedProgress.parameters (Model.insertNames setting.criteria setting.model.applied)
    setting.reachedProgress.injected = .ok next := by
  rw [← setting.placed_eq]
  exact looked

include looked

/-- The aliases behind the criteria are those of the model and those of the added ranges. -/
theorem mem_aliases_lookup (usual : setting.Usual) {name : String} :
    name ∈ next.aliases ↔ name ∈ setting.model.aliases ∨
      ∃ request ∈ setting.requests, naming.used request = some name := by
  rw [Model.ofTree_aliases (lookup_ofTree looked), mem_aliases_extended reachable usual]

/-- Behind the criteria it is known which of them added which range. -/
theorem injects_lookup (usual : setting.Usual) (fits : setting.Fits naming)
    {name criterion : String} :
    next.Injects name criterion ↔ setting.model.Injects name criterion ∨
      ∃ request ∈ setting.requests, naming.used request = some name ∧
        request.criterion = criterion := by
  have lists := fits.lists reachable.nodup_aliases
  rw [Model.ofTree_injects (lookup_ofTree looked), lookup_iff lists.nodup, lists.mem_iff,
    mem_aliases_lookup reachable looked usual]
  refine and_iff_right_of_imp fun added => ?_
  exact added.imp (·.mem_aliases) fun ⟨request, member, used, _⟩ => ⟨request, member, used⟩

/-- What was performed for the model is performed again. -/
theorem actions_subperm (fits : setting.Fits naming) {query : Query} {parameters : ParameterMap}
    {applied : List String} {injected : List (String × String)}
    (result : Model.ofTree setting.schema query parameters applied injected = .ok setting.model) :
    (Binding.queryActions ⟨setting.schema, injected⟩ query ⟨[], 0⟩).Subperm
      (Binding.queryActions ⟨setting.schema, setting.reachedProgress.injected⟩ next.query ⟨[], 0⟩) := by
  have agree : ∀ name ∈ query.allAliases,
      injected.lookup name = setting.reachedProgress.injected.lookup name := by
    intro name member
    rw [← Model.ofTree_aliases result] at member
    rw [lookup_kept reachable fits member, Model.ofTree_lookup result member]
  have subperm : (Binding.queryActions ⟨setting.schema, setting.reachedProgress.injected⟩
      (query.extended fun _ => []) ⟨[], 0⟩).Subperm (Binding.queryActions
        ⟨setting.schema, setting.reachedProgress.injected⟩
        (query.extended (naming.wording setting.requestsFor)) ⟨[], 0⟩) :=
    Binding.queryActions_subperm (fun _ => List.nil_subperm) query _
  rw [Query.extended_eq_self fun _ _ => rfl, ← Binding.queryActions_congr _ agree] at subperm
  rwa [Model.ofTree_query (lookup_ofTree looked), Model.ofTree_query result]

/-- The ranges of the model stay as they are. -/
theorem ranges_subset_lookup (fits : setting.Fits naming) :
    setting.model.ranges ⊆ next.ranges := by
  obtain ⟨query, parameters, applied, injected, result⟩ := reachable.ofTree
  have actions := actions_subperm reachable looked fits result
  have looks := lookup_ofTree looked
  rw [Model.ofTree_ranges result, Model.ofTree_ranges looks]
  rw [Model.ofTree_query looks] at actions
  exact (Binding.filterMap_subperm Binding.Action.range? actions).subset

theorem range?_lookup (fits : setting.Fits naming) {name : String}
    (member : name ∈ setting.model.aliases) : next.range? name = setting.model.range? name := by
  obtain ⟨range, among, rfl⟩ := List.mem_map.mp member
  rw [Model.range?_of_mem reachable.nodup_aliases among, Model.range?_of_mem
    (Model.ofTree_nodup (lookup_ofTree looked)) (ranges_subset_lookup reachable looked fits among)]

/-- Criteria that are applied later leave the same ranges alone, and those that were added. -/
theorem isClosed_lookup (usual : setting.Usual) (fits : setting.Fits naming) :
    (∀ name ∈ setting.model.aliases,
      next.progress.injected.any (·.1 == name) = setting.isClosed name) ∧
    ∀ request ∈ setting.requests, ∀ name, naming.used request = some name →
      next.progress.injected.any (·.1 == name) = true := by
  have closed : ∀ {model : Model} {name : String},
      model.progress.injected.any (·.1 == name) = true ↔ ∃ criterion, model.Injects name criterion := by
    intro model name
    rw [List.any_eq_true]
    constructor
    · rintro ⟨⟨known, criterion⟩, member, same⟩
      exact ⟨criterion, beq_iff_eq.mp same ▸ Model.mem_injected.mp member⟩
    · rintro ⟨criterion, injects⟩
      exact ⟨(name, criterion), Model.mem_injected.mpr injects, beq_self_eq_true name⟩
  refine ⟨fun name member => ?_, fun request member name used => ?_⟩
  · rw [Bool.eq_iff_iff, isClosed, closed, closed]
    refine exists_congr fun criterion => ?_
    rw [injects_lookup reachable looked usual fits]
    refine or_iff_left fun ⟨request, asked, used, _⟩ => ?_
    exact fits.used_new reachable.nodup_aliases asked used member
  · exact closed.mpr ⟨request.criterion, (injects_lookup reachable looked usual fits).mpr
      (.inr ⟨request, member, used, rfl⟩)⟩

/-- Criteria that are applied later reach the same ranges. -/
theorem reached_lookup (usual : setting.Usual) (fits : setting.Fits naming) :
    next.query.reached setting.scope (fun name => next.progress.injected.any (·.1 == name)) =
      setting.reached := by
  obtain ⟨kept, added⟩ := isClosed_lookup reachable looked usual fits
  rw [Model.ofTree_query (lookup_ofTree looked)]
  refine Query.reached_extended (fun range part among => ?_) fun name member =>
    kept name (reachable.aliases_eq ▸ member)
  obtain ⟨request, asked, rfl⟩ := mem_wording.mp among
  have member := (of_mem_requestsFor asked).1
  rw [Predicate.reached_eq, List.flatMap_eq_nil_iff]
  intro inner inside
  rw [Query.reachedInside, if_pos]
  exact added request member _ (usual.root_worded member naming inner inside)

omit reachable in
/-- The text has no further markers but those of the parameters. -/
theorem markers_lookup (usual : setting.Usual) {name : String}
    (new : name ∉ setting.reachedProgress.parameters.names) :
    name ∈ next.query.markers.map (·.value) ↔ name ∈ setting.markers := by
  have granted : ∀ request ∈ setting.requests, ∀ marker ∈ request.markers,
      marker ∈ setting.reachedProgress.parameters.names := by
    intro request member marker marked
    refine ParameterMap.mem_names_grantAll.mpr (.inr ?_)
    rw [List.map_flatMap]
    exact List.mem_flatMap.mpr ⟨request, member, usual.markers_subset member marked⟩
  rw [Model.ofTree_query (lookup_ofTree looked), markers, List.mem_map, List.mem_map]
  refine exists_congr fun marker => and_congr_left fun named => ?_
  rw [Query.mem_markers_extended]
  refine or_iff_left fun added => new ?_
  obtain ⟨part, among, marked⟩ := List.mem_flatMap.mp added
  obtain ⟨range, _, among⟩ := List.mem_flatMap.mp among
  obtain ⟨request, asked, rfl⟩ := mem_wording.mp among
  have member := (of_mem_requestsFor asked).1
  refine named ▸ granted request member _ ?_
  rw [Request.markers, ← (usual.simple member).markers_worded]
  exact List.mem_map_of_mem marked

end

variable {setting : Setting} {rest all : List Criterion}

/-! ### Two parts -/

section

variable (split : (setting.criteria ++ rest).Perm all)

include split

theorem visitsTo_split (name : String) :
    (setting.visitsTo name ++ (setting.applying rest).visitsTo name).Perm
      ((setting.applying all).visitsTo name) := by
  rw [visitsTo, visitsTo, ← List.map_append]
  exact split.map _

theorem visits_split : (setting.visits ++ (setting.applying rest).visits).Perm
    (setting.applying all).visits :=
  (List.flatMap_append_perm _ _ _).trans
    (List.Perm.flatMap_left _ fun name _ => visitsTo_split split name)

theorem requests_split : (setting.requests ++ (setting.applying rest).requests).Perm
    (setting.applying all).requests := by
  have answers := (visits_split split).filterMap (Visit.request? setting)
  rwa [List.filterMap_append] at answers

theorem requestsFor_split (name : String) :
    (setting.requestsFor name ++ (setting.applying rest).requestsFor name).Perm
      ((setting.applying all).requestsFor name) := by
  have answers := (visitsTo_split split name).filterMap (Visit.request? setting)
  rw [List.filterMap_append] at answers
  rw [requestsFor_applying, requestsFor_applying, requestsFor]
  split
  · exact answers
  · exact List.Perm.nil

variable (usual : (setting.applying all).Usual)

include usual

theorem usual_first : setting.Usual := by
  have distinct := (split.map (·.name)).nodup_iff.mpr usual.nodup
  rw [List.map_append] at distinct
  exact ⟨fun criterion member => usual.standard criterion (split.subset (List.mem_append_left _ member)),
    (List.nodup_append.mp distinct).1⟩

/-- No criterion has requests in both parts. -/
theorem separate_split : ∀ request ∈ setting.requests,
    ∀ other ∈ (setting.applying rest).requests, request.criterion ≠ other.criterion := by
  have distinct := (split.map (·.name)).nodup_iff.mpr usual.nodup
  rw [List.map_append] at distinct
  intro request member other member' same
  obtain ⟨criterion, ofFirst, _, named, _⟩ := contributed member
  obtain ⟨criterion', ofRest, _, named', _⟩ := contributed member'
  exact (List.nodup_append.mp distinct).2.2 _ (List.mem_map_of_mem ofFirst) _
    (List.mem_map_of_mem ofRest) (named.symm.trans (same.trans named'))

/-- All criteria get what they ask for if the first ones do, and the others do behind them. -/
theorem satisfied_split : (setting.applying all).Satisfied ↔ setting.Satisfied ∧
    Granted (setting.applying rest) setting.reachedProgress.parameters
      (setting.applying rest).visits := by
  have together := granted_perm setting.model.parameters usual.consistent
    (visits_split split).symm
  exact together.trans granted_append

end

/-! ### The second part -/

/-- The setting for another model. -/
def on (setting : Setting) (model : Model) : Setting := { setting with model }

section

variable {naming : Naming} {next : Model} (reachable : Model.Reachable setting.schema setting.model)
  (looked : setting.lookup naming = .ok next) (usual : setting.Usual) (fits : setting.Fits naming)

include reachable

theorem range_mem_of_visits {visit : Visit} (member : visit ∈ (setting.applying rest).visits) :
    visit.range ∈ setting.model.aliases := by
  obtain ⟨name, visited, among⟩ := List.mem_flatMap.mp member
  obtain ⟨criterion, _, rfl⟩ := List.mem_map.mp among
  exact reachable.aliases_eq ▸ (setting.model.query.reached_sublist _ _).subset visited

include looked fits

/-- Criteria that are applied afterwards answer as they would have answered before. -/
theorem offer_on {visit : Visit} (known : visit.range ∈ setting.model.aliases) :
    visit.offer ((setting.applying rest).on next) = visit.offer (setting.applying rest) := by
  have found : ((setting.applying rest).on next).model.range? visit.range =
      (setting.applying rest).model.range? visit.range :=
    range?_lookup reachable looked fits known
  unfold Visit.offer
  rw [found]
  rfl

include usual

theorem reached_on : ((setting.applying rest).on next).reached = setting.reached :=
  reached_lookup reachable looked usual fits

theorem visits_on : ((setting.applying rest).on next).visits = (setting.applying rest).visits := by
  rw [visits, reached_on reachable looked usual fits]
  rfl

theorem requestsFor_on (name : String) :
    ((setting.applying rest).on next).requestsFor name =
      (setting.applying rest).requestsFor name := by
  rw [requestsFor, reached_on reachable looked usual fits, requestsFor_applying]
  refine ite_congr rfl (fun visited => List.filterMap_congr fun visit among => ?_) fun _ => rfl
  have known : visit ∈ (setting.applying rest).visits := List.mem_flatMap.mpr ⟨name, visited, among⟩
  rw [Visit.request?, Visit.request?, offer_on reachable looked fits
    (range_mem_of_visits reachable known)]
  rfl

theorem requests_on :
    ((setting.applying rest).on next).requests = (setting.applying rest).requests := by
  rw [requests, requests, visits_on reachable looked usual fits]
  refine List.filterMap_congr fun visit member => ?_
  rw [Visit.request?, Visit.request?, offer_on reachable looked fits
    (range_mem_of_visits reachable member)]

/-- Criteria that are applied afterwards get what they ask for if they would have got it behind the
first ones. -/
theorem satisfied_on : ((setting.applying rest).on next).Satisfied ↔
    Granted (setting.applying rest) setting.reachedProgress.parameters
      (setting.applying rest).visits := by
  rw [Satisfied, Granted, visits_on reachable looked usual fits]
  refine and_congr (forall₂_congr fun visit member => ?_) ?_
  · rw [Visit.Answered, offer_on reachable looked fits
      (range_mem_of_visits reachable member)]
    rfl
  · have asked : ((setting.applying rest).on next).requests = (setting.applying rest).requests :=
      requests_on reachable looked usual fits
    rw [requests, requests, visits_on reachable looked usual fits] at asked
    rw [asked]
    exact ParameterMap.accepts_congr (Model.ofTree_untyped (lookup_ofTree looked))
      fun name new => markers_lookup looked usual new

end

end Setting

end Constraint

end QueryGuard
