import Mathlib.Data.List.Perm.Basic
import QueryGuard.Proofs.Rewriting.Namings
/-!
Criteria that are applied at once or in two parts, in any order: up to the aliases of the ranges that they
add, the same is looked up. The types that are noted for a parameter do not even change their order.
-/

set_option autoImplicit false

namespace QueryGuard

namespace Constraint

/-- The conditions of requests, by the ranges that they are for. -/
def Naming.wording (naming : Naming) (asked : String → List Request) (name : String) :
    List Predicate :=
  (asked name).map (·.worded naming)

/-- The requests for a range of the setting's model that is reached. -/
def Setting.requestsFor (setting : Setting) (name : String) : List Request :=
  if name ∈ setting.reached then requestsOf setting (setting.visitsTo name) else []

theorem Setting.placed_eq (setting : Setting) (naming : Naming) :
    setting.placed naming = naming.wording setting.requestsFor := by
  funext name
  rw [placed, Naming.wording, requestsFor]
  split <;> rfl

theorem Setting.of_mem_requestsFor {setting : Setting} {name : String} {request : Request}
    (member : request ∈ setting.requestsFor name) :
    request ∈ setting.requests ∧ request.range = name ∧ name ∈ setting.reached := by
  unfold requestsFor at member
  split at member
  · rename_i visited
    obtain ⟨visit, among, _, range, _⟩ := request_of_mem member
    obtain ⟨criterion, _, rfl⟩ := List.mem_map.mp among
    rw [requests_eq]
    exact ⟨List.mem_flatMap.mpr ⟨name, visited, member⟩, range, visited⟩
  · cases member

/-- No criterion has two requests for a range. -/
theorem Setting.Usual.nodup_requestsFor {setting : Setting} (usual : setting.Usual) (name : String) :
    ((setting.requestsFor name).map (·.criterion)).Nodup := by
  unfold requestsFor
  split
  · have listed := (sublist_requests setting (setting.visitsTo name)).map (·.2)
    simp only [visitsTo, List.map_map, Function.comp_def] at listed
    exact usual.nodup.sublist listed
  · exact List.nodup_nil

/-- Requests for the ranges of a model come in two parts, which are all of them together. -/
structure Divided (model : Model) (requests : List Request)
    (first rest all : String → List Request) : Prop where
  among : ∀ name, ∀ request ∈ first name ++ rest name,
    request ∈ requests ∧ request.range = name ∧ name ∈ model.aliases
  simple : ∀ request ∈ requests, request.contribution.Simple request.range
  apart : ∀ name, ((first name ++ rest name).map (·.criterion)).Nodup
  /-- No criterion has a request in both parts. -/
  separate : ∀ name name', ∀ request ∈ first name, ∀ other ∈ rest name',
    request.criterion ≠ other.criterion
  unshared : Unshared requests
  perm : ∀ name, (first name ++ rest name).Perm (all name)

namespace Divided

variable {model : Model} {requests : List Request} {first rest all : String → List Request}
  {naming naming' : Naming} {f : Equiv.Perm String}

/-- With other aliases for added ranges, the conditions for a range are those of the other naming. -/
theorem map_wording (divided : Divided model requests first rest all)
    (translates : Translates f model requests naming naming') {asked : String → List Request}
    (part : ∀ name, asked name ⊆ first name ++ rest name) (name : String) :
    (naming.wording asked name).map (Predicate.relabel f) = naming'.wording asked name := by
  rw [Naming.wording, Naming.wording, List.map_map]
  refine List.map_congr_left fun request member => ?_
  obtain ⟨listed, range, known⟩ := divided.among name request (part name member)
  exact translates.relabel_worded listed (range ▸ known) (divided.simple request listed)

theorem relabel_wording (divided : Divided model requests first rest all)
    (translates : Translates f model requests naming naming') {asked : String → List Request}
    (part : ∀ name, asked name ⊆ first name ++ rest name) (name : String) :
    naming'.wording asked (f name) = (naming.wording asked name).map (Predicate.relabel f) := by
  have stays : asked (f name) = asked name := by
    by_cases known : name ∈ model.aliases
    · rw [translates.aliases name known]
    · have none : ∀ name ∉ model.aliases, asked name = [] := fun name missing =>
        List.eq_nil_iff_forall_not_mem.mpr fun request member =>
          missing (divided.among name request (part name member)).2.2
      rw [none name known, none]
      intro moved
      exact known (f.injective (translates.aliases _ moved) ▸ moved)
  rw [divided.map_wording translates part, Naming.wording, Naming.wording, stays]

/-- No conditions are for a range that was added. -/
theorem unchanged (divided : Divided model requests first rest all)
    (fresh : (model.aliases ++ requests.filterMap naming.used).Nodup) (name : String) :
    ∀ part ∈ naming.wording first name, part.extended (naming.wording rest) = part := by
  refine List.forall_mem_map.mpr fun request member => Predicate.extended_eq_self ?_
  obtain ⟨listed, _, _⟩ := divided.among name request (List.mem_append_left _ member)
  rw [Request.worded, (divided.simple request listed).allAliases_worded]
  intro used added
  obtain ⟨label, labelled, rfl⟩ := List.mem_map.mp added
  have drawn : naming.used request = some (naming request.range request.criterion) := by
    rw [Naming.used, Request.label?, Option.mem_toList.mp labelled]
    rfl
  rw [Naming.wording, List.map_eq_nil_iff, List.eq_nil_iff_forall_not_mem]
  intro other asked
  obtain ⟨_, _, known⟩ := divided.among _ other (List.mem_append_right _ asked)
  exact (List.nodup_append.mp fresh).2.2 _ known _ (List.mem_filterMap.mpr ⟨request, listed, drawn⟩) rfl

theorem relabel_extended (divided : Divided model requests first rest all)
    (translates : Translates f model requests naming naming') {query : Query}
    (same : query.relabel f = query) :
    ((query.extended (naming.wording first)).extended (naming.wording rest)).relabel f =
      (query.extended (naming'.wording first)).extended (naming'.wording rest) := by
  rw [Query.relabel_extended (divided.relabel_wording translates fun name =>
    List.subset_append_right _ _), Query.relabel_extended (divided.relabel_wording translates
      fun name => List.subset_append_left _ _), same]

open Binding

variable {schema : Schema} {setting setting' : Binding.Setting}

/-- In two parts, criteria add the same actions as at once. -/
theorem perm_actions (divided : Divided model requests first rest all)
    (fresh : (model.aliases ++ requests.filterMap naming.used).Nodup) (query : Query)
    (around : Visible) :
    (queryActions setting ((query.extended (naming.wording first)).extended (naming.wording rest))
      around).Perm (queryActions setting (query.extended (naming.wording all)) around) := by
  refine queryActions_extended congruent_perm (divided.unchanged fresh) (fun names visible => ?_)
    query around
  have together : (names.flatMap (naming.wording first) ++ names.flatMap (naming.wording rest)).Perm
      (names.flatMap (naming.wording all)) := by
    refine (names.flatMap_append_perm _ _).trans (List.Perm.flatMap_left _ fun name _ => ?_)
    rw [Naming.wording, Naming.wording, ← List.map_append]
    exact (divided.perm name).map _
  exact together.flatMap_right _

/-- The types that criteria note for a parameter are those of one part only. -/
theorem typesFor_wording (divided : Divided model requests first rest all) (naming : Naming)
    (names : List String) (visible : Visible) (name : String) :
    typesFor schema name ((names.flatMap (naming.wording first) ++
        names.flatMap (naming.wording rest)).flatMap (conditionActions setting · visible)) =
      typesFor schema name
        ((names.flatMap (naming.wording all)).flatMap (conditionActions setting · visible)) := by
  let noted (asked : String → List Request) (range : String) : List (String × ScalarType) :=
    typesFor schema name
      ((naming.wording asked range).flatMap (conditionActions setting · visible))
  have each : ∀ asked, typesFor schema name ((names.flatMap (naming.wording asked)).flatMap
      (conditionActions setting · visible)) = names.flatMap (noted asked) := by
    intro asked
    rw [List.flatMap_assoc, typesFor_flatMap]
  have together : ∀ range, noted first range ++ noted rest range = noted all range := by
    intro range
    have listed := divided.among range
    refine Eq.trans ?_ (typesFor_requests (divided.perm range) (divided.apart range)
      (divided.unshared.of_subset fun request member => (listed request member).1) naming
      (fun request member => divided.simple request (listed request member).1) name visible)
    rw [List.map_append, List.flatMap_append, typesFor_append]
    rfl
  have silent : ∀ {asked : String → List Request},
      (∀ range, asked range ⊆ first range ++ rest range) →
      (∀ range, ∀ request ∈ asked range, name ∉ request.markers) →
      ∀ range, noted asked range = [] := by
    intro asked part unmarked range
    simp only [noted, Naming.wording]
    rw [typesFor_flatMap, List.flatMap_map, List.flatMap_eq_nil_iff]
    intro request member
    have listed := (divided.among range request (part range member)).1
    exact typesFor_worded (divided.simple request listed) (unmarked range request member) naming
      visible
  have nothing : names.flatMap (fun _ => ([] : List (String × ScalarType))) = [] :=
    List.flatMap_eq_nil_iff.mpr fun _ _ => rfl
  rw [List.flatMap_append, typesFor_append, each, each, each, ← funext together]
  by_cases marked : ∃ range, ∃ request ∈ first range, name ∈ request.markers
  · obtain ⟨range, request, asked, marked⟩ := marked
    have none : noted rest = fun _ => [] := by
      refine funext (silent (fun range => List.subset_append_right _ _) ?_)
      intro range' other asked' marked'
      exact divided.separate range range' request asked other asked' (divided.unshared request
        (divided.among range request (List.mem_append_left _ asked)).1 other
        (divided.among range' other (List.mem_append_right _ asked')).1 name marked marked')
    simp only [none, nothing, List.append_nil]
  · push Not at marked
    have none : noted first = fun _ => [] :=
      funext (silent (fun range => List.subset_append_left _ _) marked)
    simp only [none, nothing, List.nil_append]

theorem typesFor_actions (divided : Divided model requests first rest all)
    (fresh : (model.aliases ++ requests.filterMap naming.used).Nodup) (query : Query)
    (around : Visible) (name : String) :
    typesFor schema name (queryActions setting
        ((query.extended (naming.wording first)).extended (naming.wording rest)) around) =
      typesFor schema name (queryActions setting (query.extended (naming.wording all)) around) :=
  queryActions_extended (congruent_typesFor schema name) (divided.unchanged fresh)
    (fun names visible => divided.typesFor_wording naming names visible name) query around

/-- With the aliases of the other naming, what is looked up in two parts is looked up at once as well. -/
theorem perm_relabel (divided : Divided model requests first rest all)
    (translates : Translates f model requests naming naming')
    (fresh : (model.aliases ++ requests.filterMap naming'.used).Nodup) {query : Query}
    (same : query.relabel f = query) {injected injected' : List (String × String)}
    (known : ∀ name, injected'.lookup (f name) = injected.lookup name) :
    ((queryActions ⟨schema, injected⟩
        ((query.extended (naming.wording first)).extended (naming.wording rest)) ⟨[], 0⟩).map
          (Action.relabel f)).Perm
      (queryActions ⟨schema, injected'⟩ (query.extended (naming'.wording all)) ⟨[], 0⟩) ∧
    ∀ name, typesFor schema name (queryActions ⟨schema, injected⟩
        ((query.extended (naming.wording first)).extended (naming.wording rest)) ⟨[], 0⟩) =
      typesFor schema name
        (queryActions ⟨schema, injected'⟩ (query.extended (naming'.wording all)) ⟨[], 0⟩) := by
  have relabels : Setting.Relabels f ⟨schema, injected⟩ ⟨schema, injected'⟩ :=
    ⟨rfl, f.injective, known⟩
  have relabeled := queryActions_relabel relabels
    ((query.extended (naming.wording first)).extended (naming.wording rest)) ⟨[], 0⟩
  rw [divided.relabel_extended translates same] at relabeled
  refine ⟨relabeled ▸ divided.perm_actions fresh query _, fun name => ?_⟩
  rw [← divided.typesFor_actions fresh query ⟨[], 0⟩ name, typesFor, typesFor,
    ← typesOf_relabel f.injective]
  exact congrArg (fun actions => (typesOf schema actions).filter _) relabeled.symm

end Divided

/-- The requests of criteria of different names come in two parts, if they can be granted. -/
theorem Setting.Usual.divided {setting : Setting} (usual : setting.Usual)
    (satisfied : setting.Satisfied) (known : setting.reached ⊆ setting.model.aliases)
    {first rest : String → List Request}
    (perm : ∀ name, (first name ++ rest name).Perm (setting.requestsFor name))
    (separate : ∀ name name', ∀ request ∈ first name, ∀ other ∈ rest name',
      request.criterion ≠ other.criterion) :
    Divided setting.model setting.requests first rest setting.requestsFor where
  among := fun name request member => by
    obtain ⟨listed, range, visited⟩ := of_mem_requestsFor ((perm name).mem_iff.mp member)
    exact ⟨listed, range, known visited⟩
  simple := fun _ => usual.simple
  apart := fun name => ((perm name).map _).nodup_iff.mpr (usual.nodup_requestsFor name)
  separate
  unshared := usual.unshared satisfied
  perm

end Constraint

end QueryGuard
