import QueryGuard.Proofs.Rewriting.Preservation
import QueryGuard.Proofs.Rewriting.Rounds
/-!
The parameters of a constrained model, whatever the criteria are: those of the bound one, and behind them
the ones that criteria ask for because of the ranges that they are applied to.
-/

set_option autoImplicit false

namespace QueryGuard

/-! ### Granted claims -/

namespace ParameterMap

variable {markers : List String} {parameters : ParameterMap}

theorem untyped_subset_grant (claim : Claim) :
    parameters.untyped ⊆ (parameters.grant claim).untyped := by
  by_cases there : claim.name ∈ parameters.names
  · rw [grant, if_pos there]
    exact List.Subset.refl _
  · rw [untyped_grant_new there]
    exact List.subset_append_left _ _

theorem untyped_subset_grantAll (claims : List Claim) :
    parameters.untyped ⊆ (parameters.grantAll claims).untyped := by
  induction claims generalizing parameters with
  | nil => exact List.Subset.refl _
  | cons claim rest ih => exact List.Subset.trans (untyped_subset_grant claim) ih

/-- Whoever asks for a parameter and gets it has it afterwards. -/
theorem exists_of_accepts {claims : List Claim} (accepts : parameters.Accepts markers claims)
    {claim : Claim} (member : claim ∈ claims) :
    ∃ kept, (claim.name, kept, .criterion claim.criterion) ∈ (parameters.grantAll claims).untyped ∧
      (kept = claim.value ∨ kept.same claim.value = true) := by
  induction claims generalizing parameters with
  | nil => cases member
  | cons first rest ih =>
    rcases List.mem_cons.mp member with rfl | further
    · by_cases there : claim.name ∈ parameters.names
      · obtain ⟨entry, among, named⟩ := List.mem_map.mp (parameters.names_untyped ▸ there)
        obtain ⟨name, kept, owner⟩ := entry
        obtain rfl : name = claim.name := named
        obtain ⟨rfl, same⟩ := accepts.1.own kept owner among
        exact ⟨kept, untyped_subset_grantAll _ among, .inr same⟩
      · refine ⟨claim.value, untyped_subset_grantAll rest ?_, .inl rfl⟩
        rw [untyped_grant_new there]
        exact List.mem_append_right _ List.mem_cons_self
    · exact ih accepts.2 further

/-- All further parameters are ones that somebody asked for. -/
theorem mem_untyped_grantAll {claims : List Claim} {entry : String × Value × Owner}
    (member : entry ∈ (parameters.grantAll claims).untyped) : entry ∈ parameters.untyped ∨
      ∃ claim ∈ claims, entry = (claim.name, claim.value, .criterion claim.criterion) := by
  induction claims generalizing parameters with
  | nil => exact .inl member
  | cons first rest ih =>
    rcases ih member with granted | ⟨claim, among, same⟩
    · by_cases there : first.name ∈ parameters.names
      · rw [grant, if_pos there] at granted
        exact .inl granted
      · rw [untyped_grant_new there] at granted
        refine (List.mem_append.mp granted).imp_right fun new => ?_
        exact ⟨first, List.mem_cons_self, List.mem_singleton.mp new⟩
    · exact .inr ⟨claim, List.mem_cons_of_mem _ among, same⟩

end ParameterMap

namespace Constraint

variable {setting : Setting} {names : List String}

/-! ### Ranges that are reached -/

/-- The alias of a range is reached if criteria are applied to roots and, as the scope says, to joined
ranges and to those of queries inside. -/
theorem mem_reached_iff {scope : Scope} {isClosed : String → Bool} {binding : Binding.Setting}
    {around : Binding.Visible} {query : Query} {name : String}
    (written : ∀ name ∈ query.allAliases, isClosed name = false) :
    name ∈ query.reached scope isClosed ↔
      ∃ range ∈ Binding.rangesOf (Binding.queryActions binding query around), range.name = name ∧
        (range.role = .root ∨ scope.joins = true) ∧
        (range.depth = around.depth ∨ scope.subqueries = true) := by
  induction size : query.nesting using Nat.strongRecOn generalizing query around with
  | ind size ih =>
    have inside : ∀ inner ∈ query.subqueries, ∀ around : Binding.Visible,
        (name ∈ inner.reachedInside scope isClosed ↔ ∃ range ∈ Binding.rangesOf
          (Binding.queryActions binding inner around), range.name = name ∧
            (range.role = .root ∨ scope.joins = true) ∧
            (range.depth = around.depth ∨ scope.subqueries = true)) := by
      intro inner member around
      have written : ∀ name ∈ inner.allAliases, isClosed name = false :=
        fun name found => written name (Query.allAliases_subset member found)
      rw [Query.reachedInside, if_neg (by simp [written _ inner.root_mem_allAliases])]
      exact ih inner.nesting (size ▸ Query.nesting_lt member) written rfl
    rw [Query.mem_reached_cases]
    constructor
    · rw [Binding.rangesOf_queryActions]
      rintro (rfl | ⟨joins, join, among, rfl⟩ | ⟨subqueries, inner, among, found⟩)
      · exact ⟨Binding.rootRange binding around query,
          List.mem_append_left _ List.mem_cons_self, rfl, .inl rfl, .inl rfl⟩
      · obtain ⟨range, found, named, depth⟩ :=
          Binding.exists_rangeActions binding around (query.join_mem_aliases among)
        exact ⟨range, List.mem_append_left _ found, named, .inr joins, .inl depth⟩
      · obtain ⟨range, listed, named, applied, _⟩ := (inside inner among
          (Binding.levelVisible binding around query).inside).mp found
        exact ⟨range, List.mem_append_right _ (List.mem_flatMap.mpr ⟨inner, among, listed⟩), named,
          applied, .inr subqueries⟩
    · rintro ⟨range, member, rfl, applied, nests⟩
      rcases Binding.queryActions_cases member with root | ⟨joined, found⟩ | ⟨deep, inner, among, found⟩
      · exact .inl root
      · exact .inr (.inl ⟨applied.resolve_left joined, found⟩)
      · have subqueries : scope.subqueries = true := nests.resolve_left (Nat.ne_of_gt deep)
        exact .inr (.inr ⟨subqueries, inner, among,
          (inside inner among _).mpr ⟨range, found, rfl, applied, .inr subqueries⟩⟩)

/-- A criterion asks for the parameter because of the range. -/
inductive Asked (setting : Setting) (range : BoundRange) : Claim → Prop where
  | intro {entity : Entity} {criterion : Criterion} {contribution : Contribution}
      {parameter : String × Value} (known : setting.schema.entity? range.entity = some entity)
      (member : criterion ∈ setting.criteria) (applies : criterion.appliesTo entity = true)
      (result : criterion.contribute (contextOf setting entity range.name) = .ok (some contribution))
      (among : parameter ∈ contribution.parameters) :
      Asked setting range ⟨criterion.name, parameter.1, parameter.2⟩

/-! ### Steps that make visits -/

/-- What the visits ask for. -/
def claimsOf (setting : Setting) (visits : List Visit) : List Claim :=
  (requestsOf setting visits).flatMap Request.claims

theorem Visit.request?_eq_some {visit : Visit} {request : Request} :
    visit.request? setting = some request ↔ ∃ contribution,
      visit.offer setting = .ok (some contribution) ∧
        request = ⟨visit.range, visit.criterion.name, contribution⟩ := by
  rw [Visit.request?]
  split
  · rename_i contribution answer
    rw [answer]
    constructor
    · exact fun same => ⟨contribution, rfl, (Option.some.inj same).symm⟩
    · rintro ⟨_, same, rfl⟩
      rw [Option.some.inj (Except.ok.inj same)]
  · rename_i other
    constructor
    · intro none
      cases none
    · rintro ⟨contribution, answer, _⟩
      exact absurd answer (other contribution)

theorem mem_claimsOf {visits : List Visit} {claim : Claim} :
    claim ∈ claimsOf setting visits ↔
      ∃ visit ∈ visits, ∃ request, visit.request? setting = some request ∧ claim ∈ request.claims := by
  simp only [claimsOf, requestsOf, List.mem_flatMap, List.mem_filterMap]
  constructor
  · rintro ⟨request, ⟨visit, among, asked⟩, claimed⟩
    exact ⟨visit, among, request, asked, claimed⟩
  · rintro ⟨visit, among, request, asked, claimed⟩
    exact ⟨request, ⟨visit, among, asked⟩, claimed⟩

theorem claimsOf_append (first rest : List Visit) :
    claimsOf setting (first ++ rest) = claimsOf setting first ++ claimsOf setting rest := by
  rw [claimsOf, claimsOf, claimsOf, requestsOf_append, List.flatMap_append]

/-- A step that spares the names and makes the visits, one after the other: if it succeeds, the visits are
granted, and what they ask for is added to the parameters. -/
def Makes {α : Type} (setting : Setting) (names : List String) (step : Constrain α)
    (visits : List Visit) : Prop :=
  ∀ before value after, before.Spares names → step.run before = .ok (value, after) →
    after.Spares names ∧ Granted setting before.parameters visits ∧
      after.parameters = before.parameters.grantAll (claimsOf setting visits)

namespace Makes

variable {α β : Type}

theorem bind {step : Constrain α} {next : α → Constrain β} {first rest : List Visit}
    (start : Makes setting names step first)
    (others : ∀ value, Makes setting names (next value) rest) :
    Makes setting names (step >>= next) (first ++ rest) := by
  intro before value after spares run
  rw [StateT.run_bind] at run
  obtain ⟨⟨found, between⟩, run, further⟩ := ok_of_bind run
  obtain ⟨spared, granted, parameters⟩ := start before found between spares run
  obtain ⟨kept, granted', parameters'⟩ := others found between value after spared further
  rw [parameters] at granted' parameters'
  refine ⟨kept, granted_append.mpr ⟨granted, granted'⟩, ?_⟩
  rw [parameters', claimsOf_append]
  exact List.foldl_append.symm

/-- A step that is not interested in parameters makes no visits. -/
theorem idle {step : Constrain α} {visits : List Visit}
    (nothing : ∀ visit ∈ visits, visit.offer setting = .ok none)
    (keeps : ∀ parameters : ParameterMap, (keeping fun progress : Progress =>
      progress.Spares names ∧ progress.parameters = parameters).of step fun _ => True) :
    Makes setting names step visits := by
  intro before value after spares run
  obtain ⟨_, spared, same⟩ := keeps before.parameters before value after run ⟨spares, rfl⟩
  refine ⟨spared, .of_silent nothing _, ?_⟩
  rw [claimsOf, requestsOf_eq_nil nothing]
  exact same

theorem pure {visits : List Visit} (nothing : ∀ visit ∈ visits, visit.offer setting = .ok none)
    (value : α) : Makes setting names (Pure.pure value) visits :=
  idle nothing fun _ => (keeping _).pure trivial

theorem throw (error : QueryError) (visits : List Visit) :
    Makes setting names (throw error : Constrain α) visits :=
  fun _ _ _ _ run => nomatch run

theorem of_map {step : Constrain α} (f : α → β) {visits : List Visit}
    (makes : Makes setting names (f <$> step) visits) : Makes setting names step visits := by
  intro before value after spares run
  refine makes before (f value) after spares ?_
  rw [map_eq_pure_bind, StateT.run_bind, run]
  rfl

/-- Nothing is known of a query that the caller wrote, but that criteria did not add it. -/
theorem written {step : Query → Constrain Query} {query : Query} {visits : List Visit}
    (caller : query.allAliases ⊆ names) (makes : Makes setting names (step query) visits) :
    Makes setting names (unlessInjected step query) visits := by
  intro before value after spares run
  refine makes before value after spares ?_
  change StateT.run (if before.injected.any (·.1 == query.root.name.value) then _ else _) _ = _ at run
  rwa [if_neg (by simp [spares.not_injected caller])] at run

end Makes

/-! ### One range -/

/-- The parameters of a contribution are added, and its condition is copied. -/
theorem contribute_makes {visit : Visit} {contribution : Contribution}
    (offer : visit.offer setting = .ok (some contribution)) :
    Makes setting names (contribute setting visit.criterion.name contribution) [visit] := by
  let request : Request := ⟨visit.range, visit.criterion.name, contribution⟩
  have asked : claimsOf setting [visit] = request.claims := by
    have here : visit.request? setting = some request := by
      rw [Visit.request?, offer]
    rw [claimsOf, requestsOf, List.filterMap_cons_some here, List.filterMap_nil,
      List.flatMap_singleton]
  intro before value after spares run
  obtain ⟨granted, refused⟩ := supplyAll_run setting visit.criterion.name contribution.parameters before
  rw [contribute, StateT.run_bind] at run
  by_cases accepts : before.parameters.Accepts setting.markers request.claims
  · rw [granted accepts] at run
    let supplied : Progress :=
      { before with parameters := before.parameters.grantAll request.claims }
    let kept : Progress → Prop := fun progress =>
      progress.Spares names ∧ progress.parameters = supplied.parameters
    have copies : (settling kept fun _ => True).of (contribution.predicate.mapSubqueries fun query =>
        freshen visit.criterion.name query.nesting query) fun _ => True :=
      copy_settling (fun before query holds => ⟨holds.1.declare _ query, holds.2⟩) _
    have keeps := (keeping kept).bind copies.1 fun copy _ =>
      ((keeping _).pure trivial : (keeping _).of (Pure.pure (some copy)) fun _ => True)
    obtain ⟨_, spared, same⟩ := keeps supplied value after run ⟨⟨spares.taken, spares.apart⟩, rfl⟩
    refine ⟨spared, ⟨fun other only => ⟨_, List.mem_singleton.mp only ▸ offer⟩, ?_⟩, ?_⟩
    · rwa [← claimsOf, asked]
    · rw [same, asked]
  · obtain ⟨error, fails⟩ := refused accepts
    rw [fails] at run
    cases run

/-- Criteria make visits that are granted. -/
def granting (setting : Setting) (names : List String) : Rounds setting names where
  of := Makes setting names
  silent := fun value _ nothing => .pure nothing value
  unanswered := fun {_ error visits} _ _ => .throw error visits
  contribution := contribute_makes
  bind := Makes.bind
  of_map := Makes.of_map
  written := Makes.written

end Constraint

namespace Model

open Constraint

variable {schema catalog : Schema} {query : Query} {parameters : ParameterMap} {registry : Registry}
  {scope : Scope} {security : SecurityContext} {bound model : Model}

/-- Criteria are applied to no range that a criterion added to a bound query: there are none. -/
theorem bind_isClosed (bind : Model.bind schema query parameters = .ok bound) (name : String) :
    (bound.setting catalog registry scope security).isClosed name = false := by
  rw [Setting.isClosed, List.any_eq_false]
  intro entry member
  obtain ⟨range, among, injected⟩ := List.mem_filterMap.mp member
  rw [(bind_ranges bind).2.2.2 range among] at injected
  cases injected

/-- Criteria are applied to the ranges that the scope covers. -/
theorem bind_reached (bind : Model.bind schema query parameters = .ok bound) {name : String} :
    name ∈ (bound.setting catalog registry scope security).reached ↔
      ∃ range ∈ bound.ranges, range.name = name ∧ scope.Covers range := by
  rw [ofTree_ranges (bind_ofTree bind)]
  exact mem_reached_iff fun name _ => bind_isClosed bind name

/-- What a criterion contributes for a range of a bound query. -/
theorem bind_offer (bind : Model.bind schema query parameters = .ok bound) {range : BoundRange}
    (member : range ∈ bound.ranges) (criterion : Criterion) :
    let setting := bound.setting catalog registry scope security
    (Visit.mk range.name criterion).offer setting =
      match catalog.entity? range.entity with
      | none => throw (.configuration (.missingEntity range.entity))
      | some entity => if criterion.appliesTo entity then
          criterion.contribute (contextOf setting entity range.name) else return none := by
  intro setting
  have found : setting.model.range? range.name = some range :=
    range?_of_mem (ofTree_nodup bind) member
  simp only [Visit.offer, found, (bind_ranges bind).2.2.2 range member, Option.isSome_none,
    Bool.false_eq_true, ↓reduceIte]
  rfl

theorem bind_offer_iff (bind : Model.bind schema query parameters = .ok bound) {range : BoundRange}
    (member : range ∈ bound.ranges) {criterion : Criterion} {contribution : Contribution} :
    let setting := bound.setting catalog registry scope security
    (Visit.mk range.name criterion).offer setting = .ok (some contribution) ↔
      ∃ entity, catalog.entity? range.entity = some entity ∧ criterion.appliesTo entity = true ∧
        criterion.contribute (contextOf setting entity range.name) = .ok (some contribution) := by
  intro setting
  rw [bind_offer bind member]
  constructor
  · intro answer
    split at answer
    · cases answer
    · rename_i entity known
      split at answer
      · exact ⟨entity, known, ‹_›, answer⟩
      · cases answer
  · rintro ⟨entity, known, applies, result⟩
    rw [known]
    exact (if_pos applies).trans result

/-- All pending criteria visit the ranges that the scope covers. -/
theorem bind_visits (bind : Model.bind schema query parameters = .ok bound) {visit : Visit} :
    visit ∈ (bound.setting catalog registry scope security).visits ↔
      ∃ range ∈ bound.ranges, scope.Covers range ∧ visit.range = range.name ∧
        visit.criterion ∈ bound.pending registry := by
  constructor
  · intro visited
    obtain ⟨name, reached, visited⟩ := List.mem_flatMap.mp visited
    obtain ⟨criterion, pending, rfl⟩ := List.mem_map.mp visited
    obtain ⟨range, listed, rfl, covered⟩ := (bind_reached bind).mp reached
    exact ⟨range, listed, covered, rfl, pending⟩
  · rintro ⟨range, listed, covered, place, pending⟩
    exact List.mem_flatMap.mpr ⟨range.name, (bind_reached bind).mpr ⟨range, listed, rfl, covered⟩,
      List.mem_map.mpr ⟨visit.criterion, pending, by rw [← place]⟩⟩

/-- What is requested is what a criterion contributes for a covered range that it applies to. -/
theorem bind_requests (bind : Model.bind schema query parameters = .ok bound) {request : Request}
    (member : request ∈ (bound.setting catalog registry scope security).requests) :
    ∃ range ∈ bound.ranges, range.name = request.range ∧ scope.Covers range ∧
      ∃ criterion ∈ bound.pending registry, criterion.name = request.criterion ∧
      ∃ entity, catalog.entity? range.entity = some entity ∧ criterion.appliesTo entity = true ∧
        criterion.contribute (contextOf (bound.setting catalog registry scope security) entity
          range.name) = .ok (some request.contribution) := by
  obtain ⟨⟨name, criterion⟩, visited, asked⟩ := List.mem_filterMap.mp member
  obtain ⟨range, listed, covered, rfl, pending⟩ := (bind_visits bind).mp visited
  obtain ⟨contribution, answer, rfl⟩ := Visit.request?_eq_some.mp asked
  exact ⟨range, listed, rfl, covered, criterion, pending, rfl, (bind_offer_iff bind listed).mp answer⟩

/-- A criterion asks for a parameter because of a range if it claims it when it visits the range. -/
theorem bind_asked_iff (bind : Model.bind schema query parameters = .ok bound) {range : BoundRange}
    (listed : range ∈ bound.ranges) {claim : Claim} :
    let setting := bound.setting catalog registry scope security
    Asked setting range claim ↔ ∃ criterion ∈ bound.pending registry, ∃ request,
      (Visit.mk range.name criterion).request? setting = some request ∧ claim ∈ request.claims := by
  intro setting
  constructor
  · rintro @⟨entity, criterion, contribution, parameter, known, member, applies, result, among⟩
    exact ⟨criterion, member, _, Visit.request?_eq_some.mpr ⟨contribution,
      (bind_offer_iff bind listed).mpr ⟨entity, known, applies, result⟩, rfl⟩,
      List.mem_map.mpr ⟨parameter, among, rfl⟩⟩
  · rintro ⟨criterion, member, request, asked, claimed⟩
    obtain ⟨contribution, answer, rfl⟩ := Visit.request?_eq_some.mp asked
    obtain ⟨entity, known, applies, result⟩ := (bind_offer_iff bind listed).mp answer
    obtain ⟨parameter, among, rfl⟩ := List.mem_map.mp claimed
    exact .intro known member applies result among

/-- The parameters that are asked for are those that criteria ask for because of covered ranges. -/
theorem bind_claims (bind : Model.bind schema query parameters = .ok bound) {claim : Claim} :
    let setting := bound.setting catalog registry scope security
    claim ∈ claimsOf setting setting.visits ↔
      ∃ range ∈ bound.ranges, scope.Covers range ∧ Asked setting range claim := by
  intro setting
  rw [mem_claimsOf]
  constructor
  · rintro ⟨⟨name, criterion⟩, visited, claimed⟩
    obtain ⟨range, listed, covered, rfl, pending⟩ := (bind_visits bind).mp visited
    exact ⟨range, listed, covered, (bind_asked_iff bind listed).mpr ⟨criterion, pending, claimed⟩⟩
  · rintro ⟨range, listed, covered, asked⟩
    obtain ⟨criterion, pending, claimed⟩ := (bind_asked_iff bind listed).mp asked
    exact ⟨_, (bind_visits bind).mpr ⟨range, listed, covered, rfl, pending⟩, claimed⟩

/-- What criteria ask for is granted, and the constrained model has the parameters of the bound one with
those that they ask for. -/
theorem constrain_grants (bind : Model.bind schema query parameters = .ok bound)
    (constrain : bound.constrain catalog registry scope security = .ok model) :
    let setting := bound.setting catalog registry scope security
    setting.Satisfied ∧ model.parameters.untyped =
      (bound.parameters.grantAll (claimsOf setting setting.visits)).untyped := by
  intro setting
  by_cases none : bound.pending registry = []
  · rw [constrain_nothing none] at constrain
    obtain rfl := Except.ok.inj constrain
    have criteria : setting.criteria = [] := none
    have visits : setting.visits = [] := by
      refine List.flatMap_eq_nil_iff.mpr fun name _ => ?_
      rw [Setting.visitsTo, criteria, List.map_nil]
    rw [Setting.Satisfied, visits]
    exact ⟨⟨(fun _ none => by cases none), trivial⟩, rfl⟩
  · obtain ⟨applied, runs⟩ := constrain_run none
    rw [runs] at constrain
    obtain ⟨⟨result, progress⟩, run, rebound⟩ := ok_of_bind constrain
    have caller : bound.query.allAliases ⊆ bound.aliases :=
      (bind_ranges bind).2.2.1 ▸ List.Subset.refl _
    have makes : Makes setting bound.aliases _ setting.visits :=
      (granting setting bound.aliases).levels none (fun name _ => bind_isClosed bind name) _
        bound.query (Nat.le_refl _) caller
    obtain ⟨_, granted, same⟩ := makes bound.progress result progress (bind_spares bind) run
    exact ⟨granted, by rw [ofTree_untyped rebound, same]; rfl⟩

/-- The constrained model has the parameters that a criterion asks for because of a covered range. -/
theorem constrain_supplies (bind : Model.bind schema query parameters = .ok bound)
    (constrain : bound.constrain catalog registry scope security = .ok model) {range : BoundRange}
    (member : range ∈ bound.ranges) (covered : scope.Covers range) {claim : Claim}
    (asked : Asked (bound.setting catalog registry scope security) range claim) :
    ∃ kept, (claim.name, kept, .criterion claim.criterion) ∈ model.parameters.untyped ∧
      (kept = claim.value ∨ kept.same claim.value = true) := by
  obtain ⟨satisfied, same⟩ := constrain_grants bind constrain
  rw [same]
  exact ParameterMap.exists_of_accepts satisfied.2
    ((bind_claims bind).mpr ⟨range, member, covered, asked⟩)

end Model

end QueryGuard
