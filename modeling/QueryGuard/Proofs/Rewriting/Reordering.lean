import QueryGuard.Proofs.Rewriting.Dividing
/-!
The order of criteria. Main statement: criteria in another order can be applied to the same models, and
what they add is in another order then, and the ranges that they add go by other aliases.
-/

set_option autoImplicit false

namespace QueryGuard

/-- The models come from one by adding the same to it, up to the order of the added conditions and of
the added parameters, and up to the aliases of the added ranges. -/
structure Model.Reorders (model : Model) (f : Equiv.Perm String) (first second : Model) : Prop where
  aliases : ∀ name ∈ model.aliases, f name = name
  query : ∃ added added' : String → List Predicate,
    first.query = model.query.extended added ∧ second.query = model.query.extended added' ∧
      ∀ name, ((added name).map (Predicate.relabel f)).Perm (added' name)
  corresponds : first.Corresponds f second
  parameters : first.parameters.Reordered model.parameters.names second.parameters
  applied : second.applied = first.applied

namespace Constraint.Setting

/-- The setting for other criteria. -/
def applying (setting : Setting) (criteria : List Criterion) : Setting := { setting with criteria }

variable {setting : Setting} {criteria : List Criterion}

theorem requestsFor_applying (criteria : List Criterion) (name : String) :
    (setting.applying criteria).requestsFor name =
      if name ∈ setting.reached then requestsOf setting ((setting.applying criteria).visitsTo name)
      else [] := rfl

theorem visitsTo_perm (same : setting.criteria.Perm criteria) (name : String) :
    (setting.visitsTo name).Perm ((setting.applying criteria).visitsTo name) :=
  same.map _

theorem visits_perm (same : setting.criteria.Perm criteria) :
    setting.visits.Perm (setting.applying criteria).visits :=
  List.Perm.flatMap_left _ fun name _ => visitsTo_perm same name

theorem requests_perm (same : setting.criteria.Perm criteria) :
    setting.requests.Perm (setting.applying criteria).requests :=
  (visits_perm same).filterMap _

theorem requestsFor_perm (same : setting.criteria.Perm criteria) (name : String) :
    (setting.requestsFor name).Perm ((setting.applying criteria).requestsFor name) := by
  rw [requestsFor_applying, requestsFor]
  split
  · exact (visitsTo_perm same name).filterMap _
  · exact List.Perm.nil

/-- The order of visits does not matter for whether they are granted. -/
theorem granted_perm (parameters : ParameterMap) {visits others : List Visit}
    (consistent : ParameterMap.Consistent ((requestsOf setting visits).flatMap Request.claims))
    (same : visits.Perm others) :
    Granted setting parameters visits ↔ Granted setting parameters others := by
  have claims := (same.filterMap (Visit.request? setting)).flatMap_right Request.claims
  refine and_congr ?_ (ParameterMap.accepts_perm consistent claims)
  simp only [same.mem_iff]

/-- Criteria that can be applied in one order can be applied in any other. -/
theorem Usual.satisfied_iff (usual : setting.Usual) (same : setting.criteria.Perm criteria) :
    setting.Satisfied ↔ (setting.applying criteria).Satisfied :=
  granted_perm _ usual.consistent (visits_perm same)

end Constraint.Setting

namespace Model

theorem insertName_comm (first second : String) (names : List String) :
    insertName first (insertName second names) = insertName second (insertName first names) := by
  induction names with
  | nil => grind [insertName]
  | cons name rest ih => grind [insertName]

theorem insertNames_perm {criteria others : List Criterion} (same : criteria.Perm others)
    (applied : List String) : insertNames criteria applied = insertNames others applied :=
  same.foldl_eq' (fun _ _ _ _ _ => insertName_comm _ _ _) applied

namespace Reorders

theorem refl (model : Model) : model.Reorders 1 model model := by
  have same : ∀ name, (1 : Equiv.Perm String) name = name := fun _ => rfl
  refine ⟨fun name _ => rfl, ⟨fun _ => [], fun _ => [], ?_, ?_, fun _ => List.Perm.nil⟩, ⟨?_, ?_⟩,
    ⟨model.parameters.entries, [], [], ?_, ?_, List.Perm.nil, rfl⟩, rfl⟩
  · exact (Query.extended_eq_self fun _ _ => rfl).symm
  · exact (Query.extended_eq_self fun _ _ => rfl).symm
  · refine List.Perm.of_eq ((List.map_congr_left fun range _ => ?_).trans (List.map_id _))
    rfl
  · intro path
    rfl
  · exact (List.append_nil _).symm
  · exact (List.append_nil _).symm

end Reorders

open Constraint

variable {schema catalog : Schema} {model : Model} {first second : Registry} {scope : Scope}
  {security : SecurityContext}

theorem Reachable.relabel_query (reachable : Reachable schema model) {f : String → String}
    (same : ∀ name ∈ model.aliases, f name = name) : model.query.relabel f = model.query := by
  refine Query.relabel_eq_self (fun occurrence member => ?_) fun name member =>
    same name (reachable.aliases_eq ▸ member)
  obtain ⟨query, parameters, applied, injected, result⟩ := reachable.ofTree
  rw [← Query.occurrences_sites] at member
  obtain ⟨site, among, rfl⟩ := List.mem_map.mp member
  rw [ofTree_query result] at among
  obtain ⟨range, ofModel, named, _⟩ := ofTree_resolves result site among
  exact same _ (named ▸ List.mem_map_of_mem ofModel)

section

variable (catalog scope security)

theorem pending_perm (model : Model) (same : first.criteria.Perm second.criteria) :
    (model.pending first).Perm (model.pending second) :=
  same.filter _

theorem setting_usual (model : Model) {registry : Registry}
    (standard : ∀ criterion ∈ registry.criteria, criterion.Standard) :
    (model.setting catalog registry scope security).Usual :=
  ⟨fun criterion member => standard criterion (List.mem_filter.mp member).1,
    model.nodup_pending registry⟩

theorem Reachable.reached_subset {model : Model} (reachable : Reachable schema model)
    (registry : Registry) : (model.setting catalog registry scope security).reached ⊆ model.aliases :=
  reachable.aliases_eq ▸ (model.query.reached_sublist _ _).subset

end

/-- What criteria add in two orders, if they can be applied. -/
theorem Reachable.reordered (reachable : Reachable schema model)
    (same : first.criteria.Perm second.criteria)
    (standard : ∀ criterion ∈ first.criteria, criterion.Standard)
    (satisfied : (model.setting catalog first scope security).Satisfied) {naming naming' : Naming}
    (fits : (model.setting catalog first scope security).Fits naming)
    (fits' : (model.setting catalog second scope security).Fits naming') :
    ((∃ result, (model.setting catalog first scope security).lookup naming = .ok result) ↔
      ∃ result, (model.setting catalog second scope security).lookup naming' = .ok result) ∧
    ∀ result result', (model.setting catalog first scope security).lookup naming = .ok result →
      (model.setting catalog second scope security).lookup naming' = .ok result' →
      ∃ f, model.Reorders f result result' := by
  let setting := model.setting catalog first scope security
  let setting' := model.setting catalog second scope security
  have pending : setting.criteria.Perm setting'.criteria := model.pending_perm same
  have usual : setting.Usual := model.setting_usual catalog scope security standard
  have usual' : setting'.Usual := model.setting_usual catalog scope security fun criterion member =>
    standard criterion (same.mem_iff.mpr member)
  have requests : setting.requests.Perm setting'.requests := Setting.requests_perm pending
  have fresh := fits.nodup reachable.nodup_aliases
  rw [((requests.filterMap _).append_left _).nodup_iff] at fresh
  have fresh' := fits'.nodup reachable.nodup_aliases
  obtain ⟨f, translates⟩ := exists_translates fresh fresh'
  have divided : Divided model setting'.requests setting.requestsFor (fun _ => [])
      setting'.requestsFor := by
    refine usual'.divided ((usual.satisfied_iff pending).mp satisfied)
      (reachable.reached_subset catalog scope security second) (fun name => ?_)
      fun _ _ _ _ _ none => nomatch none
    rw [List.append_nil]
    exact Setting.requestsFor_perm pending name
  have kept : model.query.relabel f = model.query := reachable.relabel_query translates.aliases
  have known := translates.lookup_eq ((fits.lists reachable.nodup_aliases).perm requests)
    (fits'.lists reachable.nodup_aliases)
  obtain ⟨actions, types⟩ := divided.perm_relabel translates fresh' kept known
  have once : ∀ query : Query, query.extended (naming.wording fun _ => []) = query :=
    fun query => Query.extended_eq_self fun _ _ => rfl
  rw [once] at actions types
  unfold Setting.lookup
  rw [Setting.placed_eq, Setting.placed_eq]
  refine ⟨ofTree_ok_congr f.injective actions, fun result result' looked looked' => ⟨f, ?_⟩⟩
  refine ⟨translates.aliases, ⟨_, _, ofTree_query looked, ofTree_query looked', fun name => ?_⟩,
    ofTree_corresponds f.injective actions looked looked', ?_, ?_⟩
  · rw [divided.map_wording translates fun name => List.subset_append_left _ _]
    exact (Setting.requestsFor_perm pending name).map _
  · exact ofTree_reordered (ParameterMap.reordered_grantAll usual.consistent
      (requests.flatMap_right _) satisfied.2) types looked looked'
  · rw [ofTree_applied looked, ofTree_applied looked']
    exact (insertNames_perm pending model.applied).symm

/-- The order of the criteria in a registry does not matter for whether they can be applied, and in which
order they are applied shows in the order of the added conditions and parameters, and in the aliases
of the added ranges. -/
theorem Reachable.constrain_reorders (reachable : Reachable schema model)
    (same : first.criteria.Perm second.criteria)
    (standard : ∀ criterion ∈ first.criteria, criterion.Standard) :
    ((∃ result, model.constrain catalog first scope security = .ok result) ↔
      ∃ result, model.constrain catalog second scope security = .ok result) ∧
    ∀ result result', model.constrain catalog first scope security = .ok result →
      model.constrain catalog second scope security = .ok result' →
      ∃ f, model.Reorders f result result' := by
  have pending := model.pending_perm same
  by_cases none : model.pending first = []
  · have none' : model.pending second = [] := List.nil_perm.mp (none ▸ pending)
    rw [constrain_nothing none, constrain_nothing none']
    refine ⟨Iff.rfl, fun result result' given given' => ?_⟩
    obtain rfl := Except.ok.inj given
    obtain rfl := Except.ok.inj given'
    exact ⟨1, .refl model⟩
  · have some' : model.pending second ≠ [] := fun none' =>
      none (List.nil_perm.mp (none' ▸ pending.symm))
    have standard' : ∀ criterion ∈ second.criteria, criterion.Standard :=
      fun criterion member => standard criterion (same.mem_iff.mpr member)
    have satisfied := Setting.Usual.satisfied_iff
      (model.setting_usual catalog scope security standard) pending
    obtain ⟨naming, fits⟩ := reachable.exists_fits catalog first scope security
    obtain ⟨naming', fits'⟩ := reachable.exists_fits catalog second scope security
    have reordered := fun granted => reachable.reordered same standard granted fits fits'
    simp only [reachable.constrain_ok_iff standard none fits,
      reachable.constrain_ok_iff standard' some' fits', exists_and_left]
    refine ⟨⟨fun ⟨granted, looks⟩ => ?_, fun ⟨granted, looks⟩ => ?_⟩, ?_⟩
    · exact ⟨satisfied.mp granted, (reordered granted).1.mp looks⟩
    · have granted' := satisfied.mpr granted
      exact ⟨granted', (reordered granted').1.mpr looks⟩
    · rintro result result' ⟨granted, looked⟩ ⟨_, looked'⟩
      exact (reordered granted).2 result result' looked looked'

end Model

/-- Customers are seen by those who placed an order, and by those who are charged for one. -/
def Registry.buyers (reversed : Bool) : Registry where
  criteria :=
    let placed : Membership :=
      { name := "placed", target := "Customer", membership := "Order", reference := "customer"
        member := "id" }
    let charged : Membership := { placed with name := "charged", member := "total" }
    if reversed then [charged.criterion, placed.criterion]
    else [placed.criterion, charged.criterion]
  nodup := by
    cases reversed with
    | true => exact (by decide : ["charged", "placed"].Nodup)
    | false => exact (by decide : ["placed", "charged"].Nodup)

/-- Whichever criterion is applied first has the range that goes by the alias which both of them want. -/
theorem Model.Reachable.constrain_reorders_shop :
    ∃ query bound result result',
      Query.parse "select c from Customer c where c.name = 'a'" 0 = .ok query ∧
      Model.bind .shop query .empty = .ok bound ∧
      bound.constrain .shop (.buyers false) .standard (.ofPrincipal "ann") = .ok result ∧
      bound.constrain .shop (.buyers true) .standard (.ofPrincipal "ann") = .ok result' ∧
      result.query.text = "select c from Customer c where (c.name = 'a') and (exists (select m from Order m where m.customer = c and m.id = :criterion_placed_principal)) and (exists (select m1 from Order m1 where m1.customer = c and m1.total = :criterion_charged_principal))" ∧
      result'.query.text = "select c from Customer c where (c.name = 'a') and (exists (select m from Order m where m.customer = c and m.total = :criterion_charged_principal)) and (exists (select m1 from Order m1 where m1.customer = c and m1.id = :criterion_placed_principal))" ∧
      ∃ f, bound.Reorders f result result' := by
  have runs : ((Query.parse "select c from Customer c where c.name = 'a'" 0).toOption.bind
      fun query => (Model.bind .shop query .empty).toOption.bind fun bound =>
        (bound.constrain .shop (.buyers false) .standard (.ofPrincipal "ann")).toOption.bind
          fun result => (bound.constrain .shop (.buyers true) .standard
            (.ofPrincipal "ann")).toOption.map
              fun result' => (result.query.print, result'.query.print)) =
      some ("select c from Customer c where (c.name = 'a') and (exists (select m from Order m where m.customer = c and m.id = :criterion_placed_principal)) and (exists (select m1 from Order m1 where m1.customer = c and m1.total = :criterion_charged_principal))".toList,
        "select c from Customer c where (c.name = 'a') and (exists (select m from Order m where m.customer = c and m.total = :criterion_charged_principal)) and (exists (select m1 from Order m1 where m1.customer = c and m1.id = :criterion_placed_principal))".toList) := by
    rw [Query.parse_ofList, String.toList_ofList, String.toList_ofList]
    decide +kernel
  obtain ⟨query, parsed, runs⟩ := Option.bind_eq_some_iff.mp runs
  obtain ⟨bound, bind, runs⟩ := Option.bind_eq_some_iff.mp runs
  obtain ⟨result, constrain, runs⟩ := Option.bind_eq_some_iff.mp runs
  obtain ⟨result', constrain', texts⟩ := Option.map_eq_some_iff.mp runs
  obtain ⟨print, print'⟩ := Prod.mk.inj texts
  have standard : ∀ criterion ∈ (Registry.buyers false).criteria, criterion.Standard :=
    List.forall_mem_cons.mpr ⟨.membership _, List.forall_mem_cons.mpr
      ⟨.membership _, List.forall_mem_nil _⟩⟩
  have reorders := ((Model.Reachable.bound (ok_of_toOption bind)).constrain_reorders
    (List.Perm.swap _ _ _) standard).2 result result' (ok_of_toOption constrain)
      (ok_of_toOption constrain')
  exact ⟨query, bound, result, result', ok_of_toOption parsed, ok_of_toOption bind,
    ok_of_toOption constrain, ok_of_toOption constrain', Query.text_eq_iff.mpr print,
    Query.text_eq_iff.mpr print', reorders⟩

end QueryGuard
