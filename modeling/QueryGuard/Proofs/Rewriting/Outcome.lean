import QueryGuard.Proofs.Rewriting.Extension
import QueryGuard.Proofs.Rewriting.Reachable
/-!
What applying criteria to a model comes to: all that is asked for can be had, and the query with the
conditions of all ranges in their places is looked up anew.
-/

set_option autoImplicit false

namespace QueryGuard

/-- The names of applied criteria with those of further ones. -/
def Model.insertNames (criteria : List Criterion) (applied : List String) : List String :=
  criteria.foldl (fun names criterion => insertName criterion.name names) applied

/-- What is fixed while the pending criteria of a registry are applied to a model. -/
def Model.setting (model : Model) (catalog : Schema) (registry : Registry) (scope : Scope)
    (security : SecurityContext) : Constraint.Setting :=
  ⟨catalog, model.pending registry, scope, security, model⟩

namespace Constraint

namespace Setting

variable (setting : Setting)

/-- The aliases that criteria are applied to, in the order of the text. -/
def reached : List String := setting.model.query.reached setting.scope setting.isClosed

/-- All criteria are applied to one range after the other. -/
def visits : List Visit := setting.reached.flatMap setting.visitsTo

def requests : List Request := requestsOf setting setting.visits

/-- What is added for the range of an alias; nothing for those that are not reached. -/
def placed (naming : Naming) (name : String) : List Predicate :=
  if name ∈ setting.reached then setting.partsFor naming name else []

/-- All criteria answer, and get the parameters that they ask for. -/
def Satisfied : Prop := Granted setting setting.model.parameters setting.visits

/-- The naming has the aliases that are chosen for the ranges that criteria add. -/
def Fits (naming : Naming) : Prop := naming.Suits (drawn setting.model.aliases setting.requests)

/-- What is known when all requests have been answered. -/
def reachedProgress : Progress := setting.model.progress.after setting.requests

/-- The model of the extended query. -/
def lookup (naming : Naming) : Except QueryError Model :=
  Model.ofTree setting.schema (setting.model.query.extended (setting.placed naming))
    setting.reachedProgress.parameters (Model.insertNames setting.criteria setting.model.applied)
    setting.reachedProgress.injected

variable {setting}

theorem partsFor_eq (naming : Naming) (name : String) :
    setting.partsFor naming name =
      (requestsOf setting (setting.visitsTo name)).map (·.worded naming) := rfl

theorem requests_eq :
    setting.requests = setting.reached.flatMap fun name => requestsOf setting (setting.visitsTo name) :=
  List.filterMap_flatMap

/-- A request comes from the visit of its criterion to its range. -/
theorem request_of_mem {visits : List Visit} {request : Request}
    (member : request ∈ requestsOf setting visits) :
    ∃ visit ∈ visits, visit.offer setting = .ok (some request.contribution) ∧
      request.range = visit.range ∧ request.criterion = visit.criterion.name := by
  obtain ⟨visit, among, asked⟩ := List.mem_filterMap.mp member
  refine ⟨visit, among, ?_⟩
  unfold Visit.request? at asked
  split at asked
  · rename_i contribution offer
    rw [← Option.some.inj asked]
    exact ⟨offer, rfl, rfl⟩
  · cases asked

end Setting

theorem sublist_requests (setting : Setting) (visits : List Visit) :
    ((requestsOf setting visits).map fun request => (request.range, request.criterion)).Sublist
      (visits.map fun visit => (visit.range, visit.criterion.name)) := by
  induction visits with
  | nil => exact .slnil
  | cons visit rest ih =>
    unfold requestsOf Visit.request? at ih ⊢
    rw [List.filterMap_cons]
    split
    · exact ih.cons _
    · rename_i request asked
      split at asked
      · rw [← Option.some.inj asked]
        exact ih.cons_cons _
      · cases asked

end Constraint

namespace Model

open Constraint

variable {schema catalog : Schema} {model next : Model} {registry : Registry} {scope : Scope}
  {security : SecurityContext}

theorem nodup_pending (model : Model) (registry : Registry) :
    ((model.pending registry).map (·.name)).Nodup :=
  registry.nodup.sublist (List.filter_sublist.map _)

variable (catalog registry scope security)

theorem Reachable.nodup_reached (reachable : Reachable schema model) :
    (model.setting catalog registry scope security).reached.Nodup :=
  (reachable.aliases_eq ▸ reachable.nodup_aliases).sublist (model.query.reached_sublist _ _)

/-- No criterion visits a range twice. -/
theorem Reachable.nodup_visits (reachable : Reachable schema model) :
    ((model.setting catalog registry scope security).visits.map
      fun visit => (visit.range, visit.criterion.name)).Nodup := by
  rw [Setting.visits, List.map_flatMap, List.nodup_flatMap]
  refine ⟨fun name _ => ?_, ?_⟩
  · rw [Setting.visitsTo, List.map_map]
    have named := model.nodup_pending registry
    exact List.Nodup.of_map Prod.snd (by rwa [List.map_map])
  · refine (reachable.nodup_reached catalog registry scope security).imp ?_
    intro first second differs entry here there
    obtain ⟨visit, among, rfl⟩ := List.mem_map.mp here
    obtain ⟨visit', among', same⟩ := List.mem_map.mp there
    obtain ⟨_, _, rfl⟩ := List.mem_map.mp among
    obtain ⟨_, _, rfl⟩ := List.mem_map.mp among'
    exact differs (congrArg Prod.fst same).symm

theorem Reachable.exists_fits (reachable : Reachable schema model) :
    ∃ naming, (model.setting catalog registry scope security).Fits naming := by
  refine exists_suits ?_
  have requests := sublist_requests (model.setting catalog registry scope security)
    (model.setting catalog registry scope security).visits
  have draws : ((drawn model.aliases (model.setting catalog registry scope security).requests).map
      (·.1)).Sublist (model.setting catalog registry scope security).requests := by
    rw [drawn_requests]
    exact List.filter_sublist
  have keys := draws.map fun request : Request => (request.range, request.criterion)
  rw [List.map_map] at keys
  exact ((reachable.nodup_visits catalog registry scope security).sublist requests).sublist keys

theorem Reachable.placed (reachable : Reachable schema model) :
    Placed (model.setting catalog registry scope security)
      (model.setting catalog registry scope security).placed model.query where
  distinct := reachable.aliases_eq ▸ reachable.nodup_aliases
  among := reachable.aliases_eq ▸ List.Subset.refl _
  reached := fun _ _ member => if_pos member
  others := fun _ _ _ unvisited => if_neg unvisited

variable {catalog registry scope security}

/-- Pending criteria are applied if and only if all that they ask for can be had and the extended query
can be looked up. -/
theorem Reachable.constrain_ok_iff (reachable : Reachable schema model)
    (standard : ∀ criterion ∈ registry.criteria, criterion.Standard)
    (some : model.pending registry ≠ []) {naming : Naming}
    (fits : (model.setting catalog registry scope security).Fits naming) :
    model.constrain catalog registry scope security = .ok next ↔
      (model.setting catalog registry scope security).Satisfied ∧
        (model.setting catalog registry scope security).lookup naming = .ok next := by
  let setting := model.setting catalog registry scope security
  have carries : Carries setting (constrainLevels setting model.query.nesting model.query)
      setting.visits fun naming => model.query.extended (setting.placed naming) :=
    constrainLevels_carries some (fun criterion member => standard criterion (List.mem_filter.mp member).1)
      _ _ (Nat.le_refl _) (reachable.placed catalog registry scope security)
  have orderly : model.progress.Orderly setting := ⟨List.Subset.refl _, fun _ _ => rfl⟩
  have runs : model.constrain catalog registry scope security =
      (constrainLevels setting model.query.nesting model.query).run model.progress >>=
        fun reached => Model.ofTree catalog reached.1 reached.2.parameters
          (insertNames (model.pending registry) model.applied) reached.2.injected := by
    unfold Model.constrain
    split
    · contradiction
    · rfl
  rw [runs]
  constructor
  · intro result
    obtain ⟨⟨query, progress⟩, run, looked⟩ := ok_of_bind result
    obtain ⟨granted, rfl, named⟩ := carries.reaches _ _ _ orderly run
    rw [named naming fits] at looked
    exact ⟨granted, looked⟩
  · rintro ⟨granted, looks⟩
    obtain ⟨⟨query, progress⟩, run⟩ := carries.succeeds _ orderly granted
    obtain ⟨_, rfl, named⟩ := carries.reaches _ _ _ orderly run
    rw [run, ← looks, named naming fits]
    rfl

end Model

end QueryGuard
