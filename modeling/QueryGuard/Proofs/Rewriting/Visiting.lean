import QueryGuard.Proofs.Rewriting.Requests
/-!
The steps for one range make the visits of all criteria to it.
-/

set_option autoImplicit false

namespace QueryGuard

namespace Constraint

variable {setting : Setting}

/-! ### Parameters -/

theorem admissible_of_get? {markers : List String} {parameters : ParameterMap} {claim : Claim}
    {binding : Binding} (found : parameters.get? claim.name = some binding) :
    claim.Admissible markers parameters ↔
      binding.owner = .criterion claim.criterion ∧ binding.value.same claim.value = true := by
  refine ⟨fun admissible => admissible.own _ _ (ParameterMap.mem_untyped found), fun own => ?_⟩
  refine ⟨fun kept owner member => ?_, fun _ => List.mem_map_of_mem (mem_of_lookup found)⟩
  obtain ⟨⟨name, other⟩, among, same⟩ := List.mem_map.mp member
  obtain ⟨rfl, rfl, rfl⟩ := same
  obtain rfl := Option.some.inj (found.symm.trans (ParameterMap.get?_of_mem among))
  exact own

theorem admissible_of_missing {markers : List String} {parameters : ParameterMap} {claim : Claim}
    (missing : parameters.get? claim.name = none) :
    claim.Admissible markers parameters ↔ claim.name ∉ markers := by
  have new := ParameterMap.not_mem_names missing
  refine ⟨fun admissible marked => new (admissible.unmarked marked), fun unmarked => ?_⟩
  exact ⟨fun kept owner member => absurd member (ParameterMap.not_mem_untyped new kept owner),
    fun marked => absurd marked unmarked⟩

/-- A claim is granted, or there is a conflict. -/
theorem supply_run (setting : Setting) (claim : Claim) (before : Progress) :
    (claim.Admissible setting.markers before.parameters →
      (supply setting claim.criterion claim.name claim.value).run before =
        .ok ((), { before with parameters := before.parameters.grant claim })) ∧
    (¬ claim.Admissible setting.markers before.parameters →
      ∃ error, (supply setting claim.criterion claim.name claim.value).run before =
        .error error) := by
  cases found : before.parameters.get? claim.name with
  | some binding =>
    have there : claim.name ∈ before.parameters.names := List.mem_map_of_mem (mem_of_lookup found)
    simp only [admissible_of_get? found, supply, StateT.run_bind, StateT.run_get, pure_bind, found,
      ParameterMap.grant, if_pos there]
    split
    · rename_i refused
      refine ⟨fun own => ?_, fun _ => ⟨_, rfl⟩⟩
      simp [own.1, own.2] at refused
    · rename_i accepted
      rw [not_or, not_not, Bool.not_eq_true', Bool.not_eq_false] at accepted
      exact ⟨fun _ => rfl, fun refused => absurd accepted refused⟩
  | none =>
    have new := ParameterMap.not_mem_names found
    have marked : (setting.model.query.markers.any fun marker => marker.value == claim.name) = true ↔
        claim.name ∈ setting.markers := by
      simp [Setting.markers, List.any_eq_true]
    simp only [admissible_of_missing found, supply, StateT.run_bind, StateT.run_get, pure_bind, found,
      ParameterMap.grant, if_neg new]
    split
    · rename_i refused
      exact ⟨fun unmarked => absurd (marked.mp refused) unmarked, fun _ => ⟨_, rfl⟩⟩
    · rename_i accepted
      exact ⟨fun _ => rfl, fun refused => absurd (mt marked.mpr accepted) refused⟩

/-- All claims are granted, one after the other, or there is a conflict. -/
theorem supplyAll_run (setting : Setting) (criterion : String) (parameters : List (String × Value)) (before : Progress) :
    let claims : List Claim := parameters.map fun (name, value) => ⟨criterion, name, value⟩
    let steps := parameters.forM fun (name, value) => supply setting criterion name value
    (before.parameters.Accepts setting.markers claims → steps.run before =
      .ok ((), { before with parameters := before.parameters.grantAll claims })) ∧
    (¬ before.parameters.Accepts setting.markers claims →
      ∃ error, steps.run before = .error error) := by
  intro claims steps
  induction parameters generalizing before with
  | nil => exact ⟨fun _ => rfl, fun refused => absurd trivial refused⟩
  | cons parameter rest ih =>
    obtain ⟨name, value⟩ := parameter
    let claim : Claim := ⟨criterion, name, value⟩
    obtain ⟨granted, refused⟩ := supply_run setting claim before
    obtain ⟨further, conflict⟩ :=
      ih { before with parameters := before.parameters.grant claim }
    have run : steps.run before = (supply setting criterion name value).run before >>= fun reached =>
        (rest.forM fun (name, value) => supply setting criterion name value).run reached.2 := rfl
    rw [run]
    by_cases admissible : claim.Admissible setting.markers before.parameters
    · rw [granted admissible]
      exact ⟨fun accepts => further accepts.2,
        fun fails => conflict fun accepts => fails ⟨admissible, accepts⟩⟩
    · obtain ⟨error, fails⟩ := refused admissible
      refine ⟨fun accepts => absurd accepts.1 admissible, fun _ => ⟨error, ?_⟩⟩
      rw [fails]
      rfl

/-! ### Copies -/

/-- The range of a membership gets another alias if the one it wants is taken. -/
theorem freshen_membership (rule : Membership) (context : CriterionContext)
    (parameter criterion : String) (before : Progress) :
    let used := pick before.taken (rule.rangeName context.name)
    ((rule.predicate context parameter).mapSubqueries fun query =>
      freshen criterion query.nesting query).run before =
      .ok (rule.predicateAs context parameter used, { before with
        taken := used :: before.taken, injected := (used, criterion) :: before.injected }) := by
  intro used
  let label := rule.rangeName context.name
  let query (name : String) : Query := Query.ofEntity rule.membership name (Predicate.allOf [
    .equality (.ofPath name [rule.reference]) context.range,
    .equality (.ofPath name [rule.member]) (.ofParameter parameter)])
  have chosen : chosenFor before (query label) = [(label, used)] :=
    chooseAliases_single before.taken label
  have renamed : (query label).rename (Siblings.changes [(label, used)]) = query used := by
    have apply : ∀ name, (Siblings.changes [(label, used)]).apply name =
        Renaming.apply [(label, used)] name :=
      apply_changes (List.pairwise_singleton _ _)
    have outer : (Siblings.changes [(label, used)]).apply context.name = context.name := by
      rw [apply, Renaming.apply_cons_ne (rule.rangeName_ne context.name).symm]
      rfl
    have inner : (Siblings.changes [(label, used)]).apply label = used := by
      rw [apply, Renaming.apply_cons_self]
    have relabeled := rule.relabel_predicateAs outer parameter label
    rw [inner] at relabeled
    rw [Query.rename_eq_relabel _ rfl]
    exact (Predicate.existsIn.inj relabeled).1
  have run : (freshen criterion (query label).nesting (query label)).run before =
      .ok (query used, before.declare criterion [(label, used)]) := by
    change (freshenLevel (fun query => return query) criterion (query label)).run before = _
    rw [freshenLevel_run, chosen, renamed, Query.mapSubqueries_of_nil _ rfl]
    rfl
  change ((freshen criterion (query label).nesting (query label)) >>= fun inner =>
    pure (Predicate.existsIn inner false)).run before = _
  rw [StateT.run_bind, run]
  rfl

/-- A condition is copied with the alias that its range gets. -/
theorem copy_run {name : String} {contribution : Contribution} (simple : contribution.Simple name)
    (range criterion : String) (before : Progress) (naming : Naming) :
    let draws := drawn before.taken [⟨range, criterion, contribution⟩]
    naming.Suits draws →
    (contribution.predicate.mapSubqueries fun query =>
      freshen criterion query.nesting query).run before =
      .ok (contribution.worded (naming range criterion),
        { before with
          taken := (draws.map (·.2)).reverse ++ before.taken
          injected := (draws.map fun (request, used) => (used, request.criterion)).reverse ++
            before.injected }) := by
  intro draws suits
  cases simple with
  | plain plain =>
    have none : draws = [] := by
      simp [draws, drawn, Request.label?, Contribution.Simple.label?_plain plain]
    rw [Predicate.mapSubqueries_of_nil _ plain.subqueries, Contribution.Simple.worded_plain plain, none]
    rfl
  | @inside rule context parameter outer is =>
    let label := rule.rangeName context.name
    let used := pick before.taken label
    have drawn : draws = [(⟨range, criterion, contribution⟩, used)] := by
      simp only [draws, Constraint.drawn, Request.label?, Contribution.Simple.label?_inside is]
      rfl
    have named : naming range criterion = used := by
      rw [drawn] at suits
      exact suits _ List.mem_cons_self
    rw [named, drawn, Contribution.Simple.worded_inside is, is]
    exact freshen_membership rule context parameter criterion before

/-- A single request gets the alias that it wants, or another one for it. -/
theorem exists_suits_single (taken : List String) (request : Request) :
    ∃ naming : Naming, naming.Suits (drawn taken [request]) := by
  apply exists_suits
  rw [drawn]
  split
  · exact List.nodup_nil
  · exact List.pairwise_singleton _ _

/-! ### Ranges -/

/-- Supplies the parameters of a contribution and copies its condition. -/
def contribute (setting : Setting) (criterion : String) (contribution : Contribution) :
    Constrain (Option Predicate) := do
  contribution.parameters.forM fun (parameter, value) => supply setting criterion parameter value
  return some (← contribution.predicate.mapSubqueries fun query =>
    freshen criterion query.nesting query)

/-- A criterion is asked for a range that the caller wrote if it applies to the entity of the range. -/
theorem Visit.offer_written (visit : Visit) {range : BoundRange} {entity : Entity}
    (found : setting.model.range? visit.range = some range) (written : range.injectedBy = none)
    (known : setting.schema.entity? range.entity = some entity) :
    visit.offer setting = if visit.criterion.appliesTo entity then
      visit.criterion.contribute (contextOf setting entity visit.range) else return none := by
  simp only [offer, found, written, known, Option.isSome_none, Bool.false_eq_true, ↓reduceIte]

theorem part_idle (setting : Setting) {entity : Entity} {criterion : Criterion} (name : String)
    (applies : criterion.appliesTo entity = false) :
    part setting entity name criterion = pure none := by
  rw [part, applies]
  rfl

/-- What a criterion contributes for a range that it applies to is added. -/
theorem part_applied (setting : Setting) {entity : Entity} {criterion : Criterion} (name : String)
    (applies : criterion.appliesTo entity = true) :
    part setting entity name criterion =
      liftM (criterion.contribute (contextOf setting entity name)) >>= fun
        | none => pure none
        | some contribution => contribute setting criterion.name contribution := by
  rw [part, applies]
  rfl

/-- What is contributed for a range is added if its parameters are granted. -/
theorem contribute_run (setting : Setting) (request : Request) (simple : request.contribution.Simple request.range)
    (before : Progress) :
    (before.parameters.Accepts setting.markers request.claims → ∀ naming : Naming,
      naming.Suits (drawn before.taken [request]) →
        (contribute setting request.criterion request.contribution).run before =
          .ok (some (request.worded naming), before.after [request])) ∧
    (¬ before.parameters.Accepts setting.markers request.claims → ∃ error,
      (contribute setting request.criterion request.contribution).run before = .error error) := by
  obtain ⟨granted, refused⟩ := supplyAll_run setting request.criterion
    request.contribution.parameters before
  rw [contribute, StateT.run_bind]
  refine ⟨fun accepts naming suits => ?_, fun conflict => ?_⟩
  · have copied := copy_run simple request.range request.criterion
      { before with parameters := before.parameters.grantAll request.claims } naming suits
    rw [granted accepts, Binding.ok_bind, StateT.run_bind]
    change (StateT.run _ { before with
      parameters := before.parameters.grantAll request.claims } >>= _) = _
    rw [copied, Progress.after, List.flatMap_singleton]
    rfl
  · obtain ⟨error, fails⟩ := refused conflict
    rw [fails]
    exact ⟨error, rfl⟩

theorem contribute_carries {visit : Visit} {contribution : Contribution}
    (offer : visit.offer setting = .ok (some contribution))
    (simple : contribution.Simple visit.range) :
    Carries setting (contribute setting visit.criterion.name contribution) [visit]
      fun naming => (visit.request? setting).map (·.worded naming) := by
  let request : Request := ⟨visit.range, visit.criterion.name, contribution⟩
  have asked : visit.request? setting = some request := by
    rw [Visit.request?, offer]
  have requests : requestsOf setting [visit] = [request] := by
    rw [requestsOf, List.filterMap_cons_some asked, List.filterMap_nil]
  have granted : ∀ parameters, Granted setting parameters [visit] ↔
      parameters.Accepts setting.markers request.claims := by
    intro parameters
    rw [Granted, requests, List.flatMap_singleton]
    exact ⟨And.right, fun accepts =>
      ⟨fun other only => ⟨_, List.mem_singleton.mp only ▸ offer⟩, accepts⟩⟩
  constructor
  · intro before value after _ run
    obtain ⟨accepted, conflict⟩ := contribute_run setting request simple before
    by_cases accepts : before.parameters.Accepts setting.markers request.claims
    · have runs := accepted accepts
      rw [granted, requests, asked]
      obtain ⟨naming, suits⟩ := exists_suits_single before.taken request
      obtain ⟨_, rfl⟩ := Prod.mk.inj (Except.ok.inj (run.symm.trans (runs naming suits)))
      exact ⟨accepts, rfl, fun naming suits =>
        (Prod.mk.inj (Except.ok.inj (run.symm.trans (runs naming suits)))).1⟩
    · obtain ⟨error, fails⟩ := conflict accepts
      cases fails.symm.trans run
  · intro before _ grants
    obtain ⟨naming, suits⟩ := exists_suits_single before.taken request
    exact ⟨_, (contribute_run setting request simple before).1 ((granted _).mp grants) naming suits⟩

/-- A criterion is applied to a range. -/
theorem part_carries (visit : Visit) {range : BoundRange} {entity : Entity}
    (found : setting.model.range? visit.range = some range) (written : range.injectedBy = none)
    (known : setting.schema.entity? range.entity = some entity)
    (standard : visit.criterion.Standard) :
    Carries setting (part setting entity visit.range visit.criterion) [visit]
      fun naming => (visit.request? setting).map (·.worded naming) := by
  have offer := visit.offer_written found written known
  cases applies : visit.criterion.appliesTo entity with
  | false =>
    rw [applies] at offer
    have nothing : visit.request? setting = none := by
      rw [Visit.request?, offer]
      rfl
    rw [part_idle setting visit.range applies, nothing]
    exact .idle (List.forall_mem_singleton.mpr offer) none
  | true =>
    rw [applies, if_pos rfl] at offer
    rw [part_applied setting visit.range applies]
    cases result : visit.criterion.contribute (contextOf setting entity visit.range) with
    | error error =>
      rw [result] at offer
      have unanswered : ¬ visit.Answered setting := by
        rintro ⟨_, answer⟩
        cases offer.symm.trans answer
      exact .fails List.mem_cons_self unanswered error _
    | ok contributed =>
      rw [result] at offer
      cases contributed with
      | none =>
        have nothing : visit.request? setting = none := by
          rw [Visit.request?, offer]
        rw [nothing]
        exact .idle (List.forall_mem_singleton.mpr offer) none
      | some contribution => exact contribute_carries offer (standard.simple result)

/-- What the criteria add for the range of an alias. -/
def Setting.partsFor (setting : Setting) (naming : Naming) (name : String) : List Predicate :=
  (requestsOf setting (setting.criteria.map fun criterion => ⟨name, criterion⟩)).map
    (·.worded naming)

/-- All criteria are applied to the range of an alias. -/
theorem parts_carries (name : String) (some : setting.criteria ≠ [])
    (standard : ∀ criterion ∈ setting.criteria, criterion.Standard) :
    Carries setting (parts setting name) (setting.criteria.map fun criterion => ⟨name, criterion⟩)
      (setting.partsFor · name) := by
  let visits : List Visit := setting.criteria.map fun criterion => ⟨name, criterion⟩
  have silent : (∀ visit ∈ visits, visit.offer setting = .ok none) →
      Carries setting (pure []) visits (setting.partsFor · name) := by
    intro nothing
    refine (Carries.idle nothing []).congr rfl fun naming => ?_
    rw [Setting.partsFor, requestsOf_eq_nil nothing]
    rfl
  have offers : ∀ {answer : Except QueryError (Option Contribution)},
      (∀ criterion, Visit.offer setting ⟨name, criterion⟩ = answer) →
      ∀ visit ∈ visits, visit.offer setting = answer :=
    fun each => List.forall_mem_map.mpr fun criterion _ => each criterion
  unfold parts
  cases found : setting.model.range? name with
  | none => exact silent (offers fun criterion => by simp only [Visit.offer, found]; rfl)
  | some range =>
    cases written : range.injectedBy with
    | some owner =>
      simp only [written, Option.isSome_some, ↓reduceIte]
      exact silent (offers fun criterion => by
        simp only [Visit.offer, found, written, Option.isSome_some, ↓reduceIte]
        rfl)
    | none =>
      simp only [written, Option.isSome_none, Bool.false_eq_true, ↓reduceIte]
      cases known : setting.schema.entity? range.entity with
      | none =>
        obtain ⟨criterion, member⟩ := List.exists_mem_of_ne_nil _ some
        refine .fails (List.mem_map_of_mem member) ?_ _ _
        rintro ⟨_, answer⟩
        simp only [Visit.offer, found, written, known, Option.isSome_none, Bool.false_eq_true,
          ↓reduceIte] at answer
        cases answer
      | some entity =>
        have each : ∀ criterion ∈ setting.criteria,
            Carries setting (part setting entity name criterion) [⟨name, criterion⟩] fun naming =>
              (Visit.request? setting ⟨name, criterion⟩).map (·.worded naming) :=
          fun criterion member =>
            part_carries ⟨name, criterion⟩ found written known (standard criterion member)
        refine ((Carries.mapM each).map (List.filterMap id)).congr ?_ fun naming => ?_
        · exact List.flatMap_pure_eq_map _ _
        · rw [Setting.partsFor, requestsOf, List.filterMap_map, List.map_filterMap,
            List.filterMap_map]
          rfl

end Constraint

end QueryGuard
