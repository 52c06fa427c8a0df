import QueryGuard.Proofs.Rewriting.Regrouping
import QueryGuard.Proofs.Rewriting.Stages
/-!
Criteria that are applied to a model which others were applied to before. Main statement: in two steps
criteria add the same as at once.
-/

set_option autoImplicit false

namespace QueryGuard

/-- Criteria were applied to the model in two steps, and at once: the results are the same up to the
grouping and order of conjuncts, the order of added parameters, and the aliases of added ranges. Both
steps together add what was asked for, for each range: nothing twice for a criterion, and nothing for a
range that was added. -/
structure Model.Stages (model : Model) (asked : String → List Constraint.Request)
    (f : Equiv.Perm String) (staged once : Model) : Prop where
  aliases : ∀ name ∈ model.aliases, f name = name
  query : (staged.query.relabel f).Regroups once.query
  corresponds : staged.Corresponds f once
  parameters : staged.parameters.Reordered model.parameters.names once.parameters
  applied : once.applied = staged.applied
  added : ∃ (naming : Constraint.Naming) (first rest : String → List Constraint.Request),
    staged.query = (model.query.extended (naming.wording first)).extended (naming.wording rest) ∧
    ∀ name, (first name ++ rest name).Perm (asked name)
  apart : ∀ name, ((asked name).map (·.criterion)).Nodup
  known : ∀ name ∉ model.aliases, asked name = []

/-- A tree with some of the actions of one that can be looked up can be looked up as well. -/
theorem Model.ofTree_ok_of_subperm {schema : Schema} {query other : Query}
    {injected : List (String × String)}
    (among : (Binding.queryActions ⟨schema, injected⟩ query ⟨[], 0⟩).Subperm
      (Binding.queryActions ⟨schema, injected⟩ other ⟨[], 0⟩))
    {parameters : ParameterMap} {applied : List String}
    (looks : ∃ model, ofTree schema other parameters applied injected = .ok model) :
    ∃ model, ofTree schema query parameters applied injected = .ok model := by
  rw [ofTree_ok_iff] at looks ⊢
  refine ⟨fun action member => looks.1 action (among.subset member), ?_⟩
  have names : (query.allAliases).Subperm other.allAliases := by
    have ranges := Binding.filterMap_subperm (fun action => action.range?.map (·.name)) among
    have listed : ∀ query : Query, (Binding.queryActions ⟨schema, injected⟩ query ⟨[], 0⟩).filterMap
        (fun action => action.range?.map (·.name)) = query.allAliases := by
      intro query
      rw [← Binding.names_queryActions query ⟨[], 0⟩, Binding.rangesOf, List.map_filterMap]
    rwa [listed, listed] at ranges
  obtain ⟨kept, same, part⟩ := names
  exact same.nodup_iff.mp (looks.2.sublist part)

namespace Constraint

/-! ### One naming for both steps -/

/-- The aliases of the one naming for requests of the criteria, and of the other one for all others. -/
def Naming.combined (criteria : List Criterion) (first second : Naming) : Naming :=
  fun range criterion =>
    if criterion ∈ criteria.map (·.name) then first range criterion else second range criterion

/-- The namings agree on a request. -/
def Request.NamedAlike (request : Request) (naming other : Naming) : Prop :=
  naming request.range request.criterion = other request.range request.criterion

theorem Request.NamedAlike.used {request : Request} {naming other : Naming}
    (alike : request.NamedAlike naming other) : naming.used request = other.used request := by
  rw [Naming.used, Naming.used, alike]

theorem Naming.wording_congr {naming other : Naming} {asked : String → List Request}
    (alike : ∀ name, ∀ request ∈ asked name, request.NamedAlike naming other) :
    naming.wording asked = other.wording asked := by
  funext name
  refine List.map_congr_left fun request member => ?_
  rw [Request.worded, Request.worded, alike name request member]

namespace Setting

variable {setting : Setting} {rest all : List Criterion}

theorem combined_first {request : Request} (member : request ∈ setting.requests)
    (first second : Naming) :
    request.NamedAlike (Naming.combined setting.criteria first second) first := by
  obtain ⟨criterion, ofFirst, _, named, _⟩ := contributed member
  exact if_pos (named ▸ List.mem_map_of_mem ofFirst)

section

variable (split : (setting.criteria ++ rest).Perm all) (usual : (setting.applying all).Usual)

include split usual

theorem combined_rest {request : Request} (member : request ∈ (setting.applying rest).requests)
    (first second : Naming) :
    request.NamedAlike (Naming.combined setting.criteria first second) second := by
  have distinct := (split.map (·.name)).nodup_iff.mpr usual.nodup
  rw [List.map_append] at distinct
  obtain ⟨criterion, ofRest, _, named, _⟩ := contributed member
  refine if_neg fun among => ?_
  exact (List.nodup_append.mp distinct).2.2 _ among _ (named ▸ List.mem_map_of_mem ofRest) rfl

/-- Requests of all criteria are divided into those of the first ones and those of the others. -/
theorem divided_split (known : setting.reached ⊆ setting.model.aliases)
    (satisfied : (setting.applying all).Satisfied) :
    Divided setting.model (setting.applying all).requests setting.requestsFor
      (setting.applying rest).requestsFor (setting.applying all).requestsFor := by
  refine usual.divided satisfied known (requestsFor_split split) ?_
  intro name name' request asked other asked'
  exact separate_split split usual request (of_mem_requestsFor asked).1 other
    (of_mem_requestsFor asked').1

end

/-! ### The first step -/

section

variable {first naming : Naming} (split : (setting.criteria ++ rest).Perm all)
  (usual : (setting.applying all).Usual)
  (reachable : Model.Reachable setting.schema setting.model) (fits : setting.Fits first)
  (fits' : (setting.applying all).Fits naming)

include reachable fits fits' split

/-- The ranges that all criteria add are known as those of the first step are, under their aliases. -/
theorem lookup_agree {f : Equiv.Perm String}
    (translates : Translates f setting.model setting.requests first naming) {name : String}
    (declared : name ∈ setting.model.aliases ∨
      ∃ request ∈ setting.requests, first.used request = some name) :
    (setting.applying all).reachedProgress.injected.lookup (f name) =
      setting.reachedProgress.injected.lookup name := by
  have lists := fits.lists reachable.nodup_aliases
  have lists' := fits'.lists reachable.nodup_aliases
  rcases declared with member | ⟨request, member, used⟩
  · rw [translates.aliases name member]
    apply Option.ext
    intro criterion
    rw [lists.lookup_model fun request asked used =>
        fits.used_new reachable.nodup_aliases asked used member,
      lists'.lookup_model fun request asked used =>
        fits'.used_new reachable.nodup_aliases asked used member]
    exact Iff.rfl
  · have among := (requests_split split).subset (List.mem_append_left _ member)
    have used' : naming.used request = some (f name) := by
      rw [← translates.used request member, used]
      rfl
    rw [lists.lookup_used member used, lists'.lookup_used among used']

include usual

/-- The first step can be made if all criteria can be applied at once. -/
theorem lookup_first (satisfied : (setting.applying all).Satisfied) {once : Model}
    (looked : (setting.applying all).lookup naming = .ok once) :
    ∃ next, setting.lookup first = .ok next := by
  have usual₁ := usual_first split usual
  have satisfied₁ := ((satisfied_split split usual).mp satisfied).1
  have known : setting.reached ⊆ setting.model.aliases :=
    reachable.aliases_eq ▸ (setting.model.query.reached_sublist _ _).subset
  have divided : Divided setting.model setting.requests setting.requestsFor (fun _ => [])
      setting.requestsFor := by
    refine usual₁.divided satisfied₁ known (fun name => ?_) fun _ _ _ _ _ none => by cases none
    rw [List.append_nil]
  have fresh := fits.nodup reachable.nodup_aliases
  have fresh' : (setting.model.aliases ++ setting.requests.filterMap naming.used).Nodup := by
    have all := fits'.nodup reachable.nodup_aliases
    rw [(((requests_split split).symm.filterMap _).append_left _).nodup_iff, List.filterMap_append,
      ← List.append_assoc] at all
    exact (List.nodup_append.mp all).1
  obtain ⟨f, translates⟩ := exists_translates fresh fresh'
  have kept : setting.model.query.relabel f = setting.model.query :=
    reachable.relabel_query translates.aliases
  -- What is known behind all criteria, under the aliases of the first step.
  let injected' := (setting.applying all).reachedProgress.injected
  let injected := injected'.map fun entry => (f.symm entry.1, entry.2)
  have lookup : ∀ name, injected'.lookup (f name) = injected.lookup name := by
    intro name
    have same := Binding.lookup_relabel f.symm.injective (f name) injected'
    rw [f.symm_apply_apply] at same
    exact same.symm
  obtain ⟨alike, _⟩ := divided.perm_relabel translates fresh' kept lookup
  have once : ∀ query : Query, query.extended (first.wording fun _ => []) = query :=
    fun query => Query.extended_eq_self fun _ _ => rfl
  rw [once] at alike
  have part : ∀ name, (naming.wording setting.requestsFor name).Subperm
      (naming.wording (setting.applying all).requestsFor name) := fun name =>
    ((List.sublist_append_left _ _).map _).subperm.trans
      ((requestsFor_split split name).map _).subperm
  have looks := Model.ofTree_ok_of_subperm (Binding.queryActions_subperm part _ _)
    ⟨_, lookup_ofTree looked⟩
  have same := Binding.queryActions_congr setting.schema (fun name declared =>
    (lookup name).symm.trans (lookup_agree split reachable fits fits' translates
      ((mem_aliases_extended reachable usual₁ first).mp declared))) ⟨[], 0⟩
  have renamed : ∃ model, Model.ofTree setting.schema
      (setting.model.query.extended (first.wording setting.requestsFor)) .empty [] injected =
        .ok model := (Model.ofTree_ok_congr f.injective alike).mpr looks
  rw [Model.ofTree_ok_iff, same] at renamed
  rw [Setting.lookup, placed_eq, Model.ofTree_ok_iff]
  exact renamed

end

/-! ### The second step -/

section

variable {first second : Naming} {next : Model}
  (split : (setting.criteria ++ rest).Perm all) (usual : (setting.applying all).Usual)
  (reachable : Model.Reachable setting.schema setting.model)
  (looked : setting.lookup first = .ok next) (fits : setting.Fits first)
  (fits' : ((setting.applying rest).on next).Fits second)

include split usual

theorem used_combined (first second : Naming) :
    ((setting.applying all).requests.filterMap (Naming.combined setting.criteria first second).used).Perm
      (setting.requests.filterMap first.used ++
        (setting.applying rest).requests.filterMap second.used) := by
  refine ((requests_split split).symm.filterMap _).trans (.of_eq ?_)
  rw [List.filterMap_append]
  refine congrArg₂ (· ++ ·) (List.filterMap_congr fun request member => ?_)
    (List.filterMap_congr fun request member => ?_)
  · exact (combined_first member first second).used
  · exact (combined_rest split usual member first second).used

include reachable looked fits fits'

/-- The aliases of ranges that are added in two steps are different, and new. -/
theorem nodup_combined : (setting.model.aliases ++ (setting.applying all).requests.filterMap
    (Naming.combined setting.criteria first second).used).Nodup := by
  have usual₁ := usual_first split usual
  have here := fits.nodup reachable.nodup_aliases
  have there := fits'.nodup (Model.ofTree_nodup (lookup_ofTree looked))
  rw [requests_on reachable looked usual₁ fits, List.nodup_append] at there
  rw [((used_combined split usual first second).append_left _).nodup_iff, ← List.append_assoc,
    List.nodup_append]
  refine ⟨here, there.2.1, fun name among => there.2.2 name ?_⟩
  refine (mem_aliases_lookup reachable looked usual₁).mpr ?_
  exact (List.mem_append.mp among).imp_right List.mem_filterMap.mp

/-- Behind both steps it is known which criterion added which range. -/
theorem lists_combined : (Naming.combined setting.criteria first second).Lists setting.model
    (setting.applying all).requests ((setting.applying rest).on next).reachedProgress.injected := by
  have usual₁ := usual_first split usual
  have lists := fits'.lists (Model.ofTree_nodup (lookup_ofTree looked))
  refine ⟨lists.nodup, fun name criterion => (lists.mem_iff name criterion).trans ?_⟩
  change next.Injects name criterion ∨ _ ↔ _
  rw [injects_lookup reachable looked usual₁ fits, requests_on reachable looked usual₁ fits, or_assoc]
  refine or_congr_right ?_
  simp only [← (requests_split split).mem_iff, List.mem_append, or_and_right, exists_or]
  refine or_congr (exists_congr fun request => and_congr_right fun member => ?_)
    (exists_congr fun request => and_congr_right fun member => ?_)
  · rw [(combined_first member first second).used]
  · rw [(combined_rest split usual member first second).used]

omit fits' in
/-- The tree behind both steps is that of the model, extended twice. -/
theorem lookup_second :
    ((setting.applying rest).on next).lookup second =
      Model.ofTree setting.schema
        ((setting.model.query.extended
            ((Naming.combined setting.criteria first second).wording setting.requestsFor)).extended
          ((Naming.combined setting.criteria first second).wording
            (setting.applying rest).requestsFor))
        ((setting.applying rest).on next).reachedProgress.parameters
        (Model.insertNames rest next.applied)
        ((setting.applying rest).on next).reachedProgress.injected := by
  have usual₁ := usual_first split usual
  have asked : ((setting.applying rest).on next).requestsFor = (setting.applying rest).requestsFor :=
    funext (requestsFor_on reachable looked usual₁ fits)
  have query := Model.ofTree_query (lookup_ofTree looked)
  have here : first.wording setting.requestsFor =
      (Naming.combined setting.criteria first second).wording setting.requestsFor :=
    (Naming.wording_congr fun name request member =>
      combined_first (of_mem_requestsFor member).1 first second).symm
  have there : second.wording (setting.applying rest).requestsFor =
      (Naming.combined setting.criteria first second).wording (setting.applying rest).requestsFor :=
    (Naming.wording_congr fun name request member =>
      combined_rest split usual (of_mem_requestsFor member).1 first second).symm
  rw [lookup, placed_eq, asked, ← here, ← there, ← query]
  rfl

omit split usual fits reachable in
/-- What was performed behind the first step is performed again behind the second one. -/
theorem actions_second (reachable' : Model.Reachable setting.schema next) {staged : Model}
    (looked' : ((setting.applying rest).on next).lookup second = .ok staged) :
    (Binding.queryActions ⟨setting.schema, setting.reachedProgress.injected⟩ next.query
      ⟨[], 0⟩).Subperm (Binding.queryActions ⟨setting.schema,
        ((setting.applying rest).on next).reachedProgress.injected⟩ staged.query ⟨[], 0⟩) := by
  have known : Model.Reachable ((setting.applying rest).on next).schema
      ((setting.applying rest).on next).model := reachable'
  have looks := lookup_ofTree looked
  rw [← Model.ofTree_query looks] at looks
  exact actions_subperm known looked' fits' looks

/-- Parameters are added in two steps as they are at once, up to their order. -/
theorem reordered_second (satisfied : (setting.applying all).Satisfied)
    (reachable' : Model.Reachable setting.schema next) {staged : Model}
    (looked' : ((setting.applying rest).on next).lookup second = .ok staged) :
    ∃ parameters, ParameterMap.Reordered setting.model.parameters.names parameters
        (setting.applying all).reachedProgress.parameters ∧
      staged.parameters = (Binding.typesOf setting.schema (Binding.queryActions ⟨setting.schema,
        ((setting.applying rest).on next).reachedProgress.injected⟩ staged.query ⟨[], 0⟩)).foldl
          (fun parameters (name, type) => parameters.setType name type) parameters := by
  have usual₁ := usual_first split usual
  let here := setting.requests.flatMap Request.claims
  let there := (setting.applying rest).requests.flatMap Request.claims
  have claims : (here ++ there).Perm ((setting.applying all).requests.flatMap Request.claims) := by
    rw [← List.flatMap_append]
    exact (requests_split split).flatMap_right _
  have consistent := usual.consistent.of_subset claims.subset
  have accepts : ParameterMap.Accepts setting.markers setting.model.parameters (here ++ there) :=
    (ParameterMap.accepts_perm consistent claims).mpr satisfied.2
  refine ⟨setting.model.parameters.grantAll (here ++ there),
    ParameterMap.reordered_grantAll consistent claims accepts, ?_⟩
  have looks := lookup_ofTree looked'
  have between := Model.ofTree_parameters (lookup_ofTree looked)
  have asked : ((setting.applying rest).on next).reachedProgress.parameters =
      next.parameters.grantAll there := by
    change next.parameters.grantAll (requests _ |>.flatMap Request.claims) = _
    rw [requests_on reachable looked usual₁ fits]
  have together : setting.model.parameters.grantAll (here ++ there) =
      setting.reachedProgress.parameters.grantAll there := List.foldl_append
  have noted := (Binding.filterMap_subperm (Binding.Action.type? setting.schema)
    (actions_second looked fits' reachable' looked')).subset
  rw [← Model.ofTree_query (lookup_ofTree looked)] at between
  rw [Model.ofTree_parameters looks, asked, between, together, ← Model.ofTree_query looks]
  exact ParameterMap.setTypes_grantAll _ (List.map_subset _ noted) there

/-- In two steps criteria add the same as at once. -/
theorem second_stages (satisfied : (setting.applying all).Satisfied)
    (reachable' : Model.Reachable setting.schema next) {naming : Naming}
    (fits'' : (setting.applying all).Fits naming) :
    ((∃ staged, ((setting.applying rest).on next).lookup second = .ok staged) ↔
      ∃ once, (setting.applying all).lookup naming = .ok once) ∧
    ∀ staged once, ((setting.applying rest).on next).lookup second = .ok staged →
      (setting.applying all).lookup naming = .ok once →
      ∃ f, setting.model.Stages (setting.applying all).requestsFor f staged once := by
  have known : setting.reached ⊆ setting.model.aliases :=
    reachable.aliases_eq ▸ (setting.model.query.reached_sublist _ _).subset
  have divided := divided_split split usual known satisfied
  have fresh := nodup_combined split usual reachable looked fits fits'
  have fresh' := fits''.nodup reachable.nodup_aliases
  obtain ⟨f, translates⟩ := exists_translates fresh fresh'
  have kept : setting.model.query.relabel f = setting.model.query :=
    reachable.relabel_query translates.aliases
  have lists := lists_combined split usual reachable looked fits fits'
  obtain ⟨actions, types⟩ := divided.perm_relabel translates fresh' kept
    (translates.lookup_eq lists (fits''.lists reachable.nodup_aliases))
  have lookup : (setting.applying all).lookup naming = Model.ofTree setting.schema
      (setting.model.query.extended (naming.wording (setting.applying all).requestsFor))
      (setting.applying all).reachedProgress.parameters
      (Model.insertNames all setting.model.applied)
      (setting.applying all).reachedProgress.injected := by
    rw [Setting.lookup, placed_eq]
    rfl
  rw [lookup, lookup_second split usual reachable looked fits]
  refine ⟨Model.ofTree_ok_congr f.injective actions, fun staged once looked' looked'' => ⟨f, ?_⟩⟩
  have twice := Model.ofTree_query looked'
  refine ⟨translates.aliases, ?_, Model.ofTree_corresponds f.injective actions looked' looked'',
    ?_, ?_, ?_, usual.nodup_requestsFor, fun name missing => ?_⟩
  · rw [twice, Model.ofTree_query looked'', divided.relabel_extended translates kept]
    refine Query.extended_regroups (divided.unchanged fresh') (fun name => ?_) _
    rw [Naming.wording, Naming.wording, ← List.map_append]
    exact (divided.perm name).map _
  · obtain ⟨parameters, reordered, result⟩ := reordered_second split usual reachable looked fits fits'
      satisfied reachable' ((lookup_second split usual reachable looked fits).trans looked')
    rw [result, Model.ofTree_parameters looked'', twice]
    exact reordered.setTypes fun name => Binding.lookup_typesOf (types name)
  · rw [Model.ofTree_applied looked', Model.ofTree_applied looked'',
      Model.ofTree_applied (lookup_ofTree looked), ← Model.insertNames_perm split]
    exact List.foldl_append
  · exact ⟨Naming.combined setting.criteria first second, _, _, twice, divided.perm⟩
  · refine List.eq_nil_iff_forall_not_mem.mpr fun request member => missing ?_
    exact (divided.among name request ((divided.perm name).mem_iff.mpr member)).2.2

end

end Setting

end Constraint

namespace Model

open Constraint

variable {schema : Schema} {model next : Model} {first rest all : Registry} {scope : Scope}
  {security : SecurityContext}

theorem mem_insertNames {criteria : List Criterion} {applied : List String} {name : String} :
    name ∈ insertNames criteria applied ↔ name ∈ applied ∨ name ∈ criteria.map (·.name) := by
  have inserted : ∀ (other : String) (names : List String),
      name ∈ insertName other names ↔ name = other ∨ name ∈ names := by
    intro other names
    induction names with
    | nil => simp [insertName]
    | cons head tail ih => grind [insertName]
  induction criteria generalizing applied with
  | nil => simp [insertNames]
  | cons criterion others ih =>
    refine ih.trans ?_
    rw [inserted, List.map_cons, List.mem_cons, or_assoc, or_left_comm]

/-- Behind the first step, the criteria of the second one are still to be applied. -/
theorem pending_split (split : (first.criteria ++ rest.criteria).Perm all.criteria)
    (applied : next.applied = insertNames (model.pending first) model.applied) :
    (next.pending all).Perm (model.pending rest) := by
  have distinct := (split.map (·.name)).nodup_iff.mpr all.nodup
  rw [List.map_append] at distinct
  have known : ∀ name, next.isApplied name = true ↔
      model.isApplied name = true ∨ name ∈ (model.pending first).map (·.name) := by
    intro name
    rw [isApplied, isApplied, List.contains_iff_mem, List.contains_iff_mem, applied, mem_insertNames]
  refine (split.symm.filter _).trans (.of_eq ?_)
  rw [List.filter_append]
  have done : first.criteria.filter (fun criterion => !next.isApplied criterion.name) = [] := by
    refine List.filter_eq_nil_iff.mpr fun criterion member => ?_
    rw [Bool.not_eq_true', Bool.not_eq_false, known]
    refine or_iff_not_imp_left.mpr fun new => List.mem_map_of_mem (List.mem_filter.mpr ⟨member, ?_⟩)
    rwa [Bool.not_eq_true', ← Bool.not_eq_true]
  rw [done, List.nil_append]
  refine List.filter_congr fun criterion member => ?_
  rw [Bool.not_eq_eq_eq_not, Bool.not_not, Bool.eq_iff_iff, known]
  refine or_iff_left fun among => ?_
  obtain ⟨other, pending, named⟩ := List.mem_map.mp among
  exact (List.nodup_append.mp distinct).2.2 _ (List.mem_map_of_mem (List.mem_filter.mp pending).1) _
    (List.mem_map_of_mem member) named

/-- Criteria may be applied in two steps: first those of a part of the registry, then all of the registry,
of which the others are still to be applied. Both steps can be made if and only if all criteria can
be applied at once, and the results are the same up to the order and grouping of what was added. -/
theorem Reachable.constrain_stages (reachable : Reachable schema model)
    (split : (first.criteria ++ rest.criteria).Perm all.criteria)
    (standard : ∀ criterion ∈ all.criteria, criterion.Standard) :
    ((∃ next staged, model.constrain schema first scope security = .ok next ∧
        next.constrain schema all scope security = .ok staged) ↔
      ∃ once, model.constrain schema all scope security = .ok once) ∧
    ∀ next staged once, model.constrain schema first scope security = .ok next →
      next.constrain schema all scope security = .ok staged →
      model.constrain schema all scope security = .ok once →
      (next.pending all).Perm (model.pending rest) ∧ ∃ f,
        model.Stages (model.setting schema all scope security).requestsFor f staged once := by
  let setting := model.setting schema first scope security
  have standard₁ : ∀ criterion ∈ first.criteria, criterion.Standard := fun criterion member =>
    standard criterion (split.subset (List.mem_append_left _ member))
  have usual₁ : setting.Usual := model.setting_usual schema scope security standard₁
  have usual : (setting.applying (model.pending all)).Usual :=
    model.setting_usual schema scope security standard
  have together : (setting.criteria ++ model.pending rest).Perm (model.pending all) := by
    have pending := split.filter fun criterion => !model.isApplied criterion.name
    rwa [List.filter_append] at pending
  obtain ⟨naming, fits⟩ := reachable.exists_fits schema first scope security
  obtain ⟨naming', fits'⟩ := reachable.exists_fits schema all scope security
  have firstly : ∀ next, model.constrain schema first scope security = .ok next ↔
      setting.Satisfied ∧ setting.lookup naming = .ok next := fun _ =>
    reachable.constrain_iff standard₁ fits
  have atOnce : ∀ once, model.constrain schema all scope security = .ok once ↔
      (setting.applying (model.pending all)).Satisfied ∧
        (setting.applying (model.pending all)).lookup naming' = .ok once := fun _ =>
    reachable.constrain_iff standard fits'
  -- Behind a first step, the second one can be made if all criteria can be applied at once.
  have step : ∀ next, model.constrain schema first scope security = .ok next →
      (next.pending all).Perm (model.pending rest) ∧
      ((∃ staged, next.constrain schema all scope security = .ok staged) ↔
        ∃ once, model.constrain schema all scope security = .ok once) ∧
      ∀ staged once, next.constrain schema all scope security = .ok staged →
        model.constrain schema all scope security = .ok once → ∃ f,
          model.Stages (model.setting schema all scope security).requestsFor f staged once := by
    intro next constrain
    obtain ⟨satisfied₁, looked⟩ := (firstly next).mp constrain
    have others := pending_split split (ofTree_applied (Setting.lookup_ofTree looked))
    have split' := (others.append_left setting.criteria).trans together
    have known := reachable.constrained constrain
    rw [ite_self] at known
    obtain ⟨second, fits₂⟩ := known.exists_fits schema all scope security
    have secondly : ∀ staged, next.constrain schema all scope security = .ok staged ↔
        (next.setting schema all scope security).Satisfied ∧
          (next.setting schema all scope security).lookup second = .ok staged := fun _ =>
      known.constrain_iff standard fits₂
    have satisfied : (setting.applying (model.pending all)).Satisfied ↔
        (next.setting schema all scope security).Satisfied :=
      (Setting.satisfied_split split' usual).trans ((and_iff_right satisfied₁).trans
        (Setting.satisfied_on reachable looked usual₁ fits).symm)
    have stages := fun granted =>
      Setting.second_stages split' usual reachable looked fits fits₂ granted known fits'
    simp only [secondly, atOnce, exists_and_left]
    refine ⟨others, ⟨fun ⟨granted, looks⟩ => ?_, fun ⟨granted, looks⟩ => ?_⟩, ?_⟩
    · exact ⟨satisfied.mpr granted, (stages (satisfied.mpr granted)).1.mp looks⟩
    · exact ⟨satisfied.mp granted, (stages granted).1.mpr looks⟩
    · rintro staged once ⟨_, looked₂⟩ ⟨granted, looked'⟩
      exact (stages granted).2 staged once looked₂ looked'
  refine ⟨⟨?_, ?_⟩, fun next staged once constrain constrain₂ constrain' => ?_⟩
  · rintro ⟨next, staged, constrain, constrain₂⟩
    exact (step next constrain).2.1.mp ⟨staged, constrain₂⟩
  · rintro ⟨once, constrain'⟩
    obtain ⟨granted, looked'⟩ := (atOnce once).mp constrain'
    obtain ⟨next, looked⟩ := Setting.lookup_first together usual reachable fits fits' granted looked'
    have constrain := (firstly next).mpr
      ⟨((Setting.satisfied_split together usual).mp granted).1, looked⟩
    obtain ⟨staged, constrain₂⟩ := (step next constrain).2.1.mpr ⟨once, constrain'⟩
    exact ⟨next, staged, constrain, constrain₂⟩
  · obtain ⟨others, _, stages⟩ := step next constrain
    exact ⟨others, stages staged once constrain₂ constrain'⟩

end Model

/-- The first criteria of the registry. -/
def Registry.take (registry : Registry) (count : Nat) : Registry :=
  ⟨registry.criteria.take count, registry.nodup.sublist ((List.take_sublist _ _).map _)⟩

/-- The criteria of the registry behind the first ones. -/
def Registry.drop (registry : Registry) (count : Nat) : Registry :=
  ⟨registry.criteria.drop count, registry.nodup.sublist ((List.drop_sublist _ _).map _)⟩

/-- The criterion that is registered last is applied before the other one. -/
theorem Model.Reachable.constrain_stages_shop :
    ∃ query bound next staged once,
      Query.parse "select c from Customer c where c.name = 'a'" 0 = .ok query ∧
      Model.bind .shop query .empty = .ok bound ∧
      bound.constrain .shop ((Registry.buyers false).drop 1) .standard (.ofPrincipal "ann") =
        .ok next ∧
      next.constrain .shop (.buyers false) .standard (.ofPrincipal "ann") = .ok staged ∧
      bound.constrain .shop (.buyers false) .standard (.ofPrincipal "ann") = .ok once ∧
      staged.query.text = "select c from Customer c where ((c.name = 'a') and (exists (select m from Order m where m.customer = c and m.total = :criterion_charged_principal))) and (exists (select m1 from Order m1 where m1.customer = c and m1.id = :criterion_placed_principal))" ∧
      once.query.text = "select c from Customer c where (c.name = 'a') and (exists (select m from Order m where m.customer = c and m.id = :criterion_placed_principal)) and (exists (select m1 from Order m1 where m1.customer = c and m1.total = :criterion_charged_principal))" ∧
      (next.pending (.buyers false)).Perm (bound.pending ((Registry.buyers false).take 1)) ∧
      ∃ f, bound.Stages (bound.setting .shop (.buyers false) .standard
        (.ofPrincipal "ann")).requestsFor f staged once := by
  have runs : ((Query.parse "select c from Customer c where c.name = 'a'" 0).toOption.bind
      fun query => (Model.bind .shop query .empty).toOption.bind fun bound =>
        (bound.constrain .shop ((Registry.buyers false).drop 1) .standard
          (.ofPrincipal "ann")).toOption.bind fun next =>
            (next.constrain .shop (.buyers false) .standard (.ofPrincipal "ann")).toOption.bind
              fun staged => (bound.constrain .shop (.buyers false) .standard
                (.ofPrincipal "ann")).toOption.map
                  fun once => (staged.query.print, once.query.print)) =
      some ("select c from Customer c where ((c.name = 'a') and (exists (select m from Order m where m.customer = c and m.total = :criterion_charged_principal))) and (exists (select m1 from Order m1 where m1.customer = c and m1.id = :criterion_placed_principal))".toList,
        "select c from Customer c where (c.name = 'a') and (exists (select m from Order m where m.customer = c and m.id = :criterion_placed_principal)) and (exists (select m1 from Order m1 where m1.customer = c and m1.total = :criterion_charged_principal))".toList) := by
    rw [Query.parse_ofList, String.toList_ofList, String.toList_ofList]
    decide +kernel
  obtain ⟨query, parsed, runs⟩ := Option.bind_eq_some_iff.mp runs
  obtain ⟨bound, bind, runs⟩ := Option.bind_eq_some_iff.mp runs
  obtain ⟨next, constrain, runs⟩ := Option.bind_eq_some_iff.mp runs
  obtain ⟨staged, constrain₂, runs⟩ := Option.bind_eq_some_iff.mp runs
  obtain ⟨once, constrain', texts⟩ := Option.map_eq_some_iff.mp runs
  obtain ⟨print, print'⟩ := Prod.mk.inj texts
  have standard : ∀ criterion ∈ (Registry.buyers false).criteria, criterion.Standard :=
    List.forall_mem_cons.mpr ⟨.membership _, List.forall_mem_cons.mpr
      ⟨.membership _, List.forall_mem_nil _⟩⟩
  have split : (((Registry.buyers false).drop 1).criteria ++
      ((Registry.buyers false).take 1).criteria).Perm (Registry.buyers false).criteria :=
    List.perm_append_comm.trans (.of_eq (List.take_append_drop 1 _))
  obtain ⟨others, stages⟩ := ((Model.Reachable.bound (ok_of_toOption bind)).constrain_stages split
    standard).2 next staged once (ok_of_toOption constrain) (ok_of_toOption constrain₂)
      (ok_of_toOption constrain')
  exact ⟨query, bound, next, staged, once, ok_of_toOption parsed, ok_of_toOption bind,
    ok_of_toOption constrain, ok_of_toOption constrain₂, ok_of_toOption constrain',
    Query.text_eq_iff.mpr print, Query.text_eq_iff.mpr print', others, stages⟩

end QueryGuard
