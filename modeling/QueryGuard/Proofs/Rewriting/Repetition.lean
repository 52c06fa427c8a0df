import QueryGuard.Proofs.Rewriting.Refusals
import QueryGuard.Proofs.Rewriting.Reordering
/-!
A criterion in conflict with itself. It asks for its parameters anew for each range, always with the same
values, and gets them again unless a value differs from itself, which those do that are not a number.
-/

set_option autoImplicit false

namespace QueryGuard

/-! ### Values -/

namespace Value

/-- The value is not a number, or it is a list with such a value. -/
inductive HoldsNaN : Value → Prop where
  | number : HoldsNaN (.float64 .nan)
  | item {items : List Value} {item : Value} (member : item ∈ items) (holds : item.HoldsNaN) :
      HoldsNaN (.list items)

theorem same_self_iff (value : Value) : value.same value = true ↔ ¬ value.HoldsNaN := by
  refine Value.rec (motive_1 := fun value => value.same value = true ↔ ¬ value.HoldsNaN)
    (motive_2 := fun items => sameAll items items = true ↔ ∀ item ∈ items, ¬ item.HoldsNaN)
    ?null ?bool ?int32 ?int64 ?float64 ?string ?timestamp ?uuid ?list ?nil ?cons value
  case float64 =>
    intro number
    by_cases is : number = .nan
    · subst is
      exact iff_of_false (by simp [same, Binary64.nan_same]) fun none => none .number
    · refine iff_of_true (Binary64.same_self is) ?_
      rintro ⟨⟩
      exact is rfl
  case list =>
    intro items each
    rw [same, each]
    refine ⟨fun none holds => ?_, fun none item member holds => none (.item member holds)⟩
    cases holds with
    | item member holds => exact none _ member holds
  case nil => exact iff_of_true rfl (List.forall_mem_nil _)
  case cons =>
    intro first rest here others
    rw [sameAll, Bool.and_eq_true, here, others, List.forall_mem_cons]
  all_goals
    intros
    exact iff_of_true (by simp [same]) nofun

end Value

/-! ### One criterion -/

namespace Criterion.Standard

variable {criterion : Criterion} {context other : CriterionContext}

/-- Only that an attribute is missing makes a criterion fail. -/
theorem contribute_error (standard : criterion.Standard) {error : QueryError}
    (fails : criterion.contribute context = .error error) :
    ∃ attr, error = .missingAttribute criterion.name attr := by
  cases standard with
  | tenant parameter => cases fails
  | softDelete => cases fails
  | policy policy => exact (Comparing.policy policy).contribute_error fails
  | membership rule => exact (Comparing.membership rule).contribute_error fails

/-- A criterion that contributes anything for a range fails for no other range. -/
theorem contribute_answers (standard : criterion.Standard) {contribution : Contribution}
    (security : other.security = context.security)
    (parameterPrefix : other.parameterPrefix = context.parameterPrefix)
    (result : criterion.contribute context = .ok (some contribution)) :
    ∃ offer, criterion.contribute other = .ok offer := by
  cases standard with
  | tenant parameter => exact ⟨_, rfl⟩
  | softDelete => exact ⟨_, rfl⟩
  | policy policy =>
    obtain ⟨parameters, values, _⟩ := RowPolicy.contribute_ok result
    by_cases exempt : policy.exempts other.security
    · exact ⟨none, if_pos exempt⟩
    · have answers : policy.criterion.contribute other = _ := if_neg exempt
      rw [RowPolicy.contribution, RowPolicy.leafParameter_eq security parameterPrefix, values]
        at answers
      exact ⟨_, answers⟩
  | membership rule =>
    obtain ⟨value, known, _⟩ := Membership.contribute_ok result
    by_cases admin : other.security.admin
    · exact ⟨none, if_pos admin⟩
    · have answers : rule.criterion.contribute other = _ := if_neg admin
      rw [← security] at known
      rw [known] at answers
      exact ⟨_, answers⟩

end Criterion.Standard

/-- A parameter that a criterion may have though it has none yet is one that nobody has. -/
theorem Claim.Admissible.unused {claim : Claim} {markers : List String} {parameters : ParameterMap}
    (admissible : claim.Admissible markers parameters)
    (foreign : ∀ entry ∈ parameters.untyped, entry.2.2 ≠ .criterion claim.criterion) :
    claim.name ∉ parameters.names ∧ claim.name ∉ markers := by
  have new : claim.name ∉ parameters.names := by
    intro there
    rw [← parameters.names_untyped] at there
    obtain ⟨⟨name, kept, owner⟩, among, named⟩ := List.mem_map.mp there
    obtain rfl : name = claim.name := named
    exact foreign _ among (admissible.own kept owner among).1
  exact ⟨new, fun marked => new (admissible.unmarked marked)⟩

namespace Constraint

variable {setting : Setting} {visit other : Visit} {request request' : Request}

/-- A criterion asks for the same because of all ranges that it contributes anything for. -/
theorem Visit.claims_eq (standard : visit.criterion.Standard)
    (same : other.criterion = visit.criterion) (asked : visit.request? setting = some request)
    (asked' : other.request? setting = some request') : request'.claims = request.claims := by
  obtain ⟨contribution, offer, rfl⟩ := Visit.request?_eq_some.mp asked
  obtain ⟨contribution', offer', rfl⟩ := Visit.request?_eq_some.mp asked'
  obtain ⟨entity, answers⟩ := Visit.contributed offer
  obtain ⟨entity', answers'⟩ := Visit.contributed offer'
  rw [same] at answers'
  have parameters := standard.parameters_eq (by rfl) (by rfl) (by rfl) answers answers'
  simp only [Request.claims, parameters, same]

/-- The parameters that a criterion asks for because of a range have different names. -/
theorem Visit.nodup_claims (standard : visit.criterion.Standard)
    (asked : visit.request? setting = some request) : (request.claims.map (·.name)).Nodup := by
  obtain ⟨contribution, offer, rfl⟩ := Visit.request?_eq_some.mp asked
  obtain ⟨entity, answers⟩ := Visit.contributed offer
  rw [Request.claims, List.map_map]
  exact standard.parameters_nodup answers

theorem Visit.criterion_of_claim (asked : visit.request? setting = some request) {claim : Claim}
    (claimed : claim ∈ request.claims) : claim.criterion = visit.criterion.name := by
  obtain ⟨contribution, _, rfl⟩ := Visit.request?_eq_some.mp asked
  obtain ⟨parameter, _, rfl⟩ := List.mem_map.mp claimed
  rfl

/-- What is granted because of different visits can be granted in any order. -/
theorem compatible_of_accepts {parameters : ParameterMap} {visits : List Visit}
    (consistent : ParameterMap.Consistent (claimsOf setting visits))
    (accepts : parameters.Accepts setting.markers (claimsOf setting visits))
    (visited : visit ∈ visits) (visited' : other ∈ visits) (differs : visit ≠ other)
    (asked : visit.request? setting = some request) (asked' : other.request? setting = some request')
    {claim claim' : Claim} (claimed : claim ∈ request.claims) (claimed' : claim' ∈ request'.claims) :
    claim.Compatible parameters claim' := by
  have pairs := ((ParameterMap.accepts_iff consistent).mp accepts).2
  rw [claimsOf, requestsOf, List.pairwise_flatMap, List.pairwise_filterMap] at pairs
  have _symmetric : Std.Symm fun visit other : Visit => ∀ request, visit.request? setting = some request →
      ∀ request', other.request? setting = some request' → ∀ claim ∈ request.claims,
        ∀ claim' ∈ request'.claims, claim.Compatible parameters claim' :=
    ⟨fun _ _ related _ asked _ asked' _ claimed _ claimed' =>
      (related _ asked' _ asked _ claimed' _ claimed).symm⟩
  exact pairs.2.forall visited visited' differs _ asked _ asked' _ claimed _ claimed'

/-- A criterion is denied what it has itself because it asked for it before, with a value that differs from
itself. -/
theorem repeats_of_denies {criterion : Criterion} (standard : criterion.Standard)
    {parameters : ParameterMap} {first : List Visit}
    (sole : ∀ other ∈ visit :: first, other.criterion = criterion)
    (foreign : ∀ entry ∈ parameters.untyped, entry.2.2 ≠ .criterion criterion.name)
    (asked : visit.request? setting = some request) {name parameter : String}
    (denies : (parameters.grantAll (claimsOf setting first)).Denies setting.markers request.claims
      (.conflict name parameter (.criterion criterion.name))) :
    ∃ claim ∈ claimsOf setting first, claim ∈ request.claims ∧ claim.value.HoldsNaN := by
  obtain ⟨here, before⟩ := List.forall_mem_cons.mp sole
  have standard : visit.criterion.Standard := here ▸ standard
  have distinct := Visit.nodup_claims standard asked
  obtain ⟨front, claim, back, _, claims, contested, same⟩ := denies.split
  obtain ⟨rfl, rfl, rfl⟩ := QueryError.conflict.inj same
  cases contested with
  | held member differs =>
    rcases ParameterMap.mem_untyped_grantAll member with former | ⟨earlier, among, entry⟩
    · rcases ParameterMap.mem_untyped_grantAll former with held | ⟨earlier, among, entry⟩
      · exact absurd rfl (foreign _ held)
      · -- what was asked for under the same name before is the same
        obtain ⟨other, visited, request', asked', claimed⟩ := mem_claimsOf.mp among
        rw [Visit.claims_eq standard ((before other visited).trans here.symm) asked asked'] at claimed
        have claimed' : claim ∈ request.claims := by
          rw [claims]
          exact List.mem_append_right _ List.mem_cons_self
        obtain ⟨named, rest⟩ := Prod.mk.inj entry
        obtain ⟨rfl, owned⟩ := Prod.mk.inj rest
        obtain rfl := List.inj_on_of_nodup_map distinct claimed claimed' named.symm
        have differs := differs owned
        exact ⟨earlier, among, claimed,
          of_not_not ((Value.same_self_iff _).not.mp (Bool.eq_false_iff.mp differs))⟩
    · rw [claims, List.map_append, List.nodup_append] at distinct
      exact absurd (congrArg Prod.fst entry).symm (distinct.2.2 _ (List.mem_map_of_mem among) _
        List.mem_cons_self)

/-- A criterion is only denied by itself what nobody has and the text does not mention. -/
theorem owner_of_denies {criterion : Criterion} {parameters : ParameterMap} {first : List Visit}
    (sole : ∀ other ∈ visit :: first, other.criterion = criterion)
    (asked : visit.request? setting = some request)
    (unused : ∀ claim ∈ request.claims,
      claim.name ∉ parameters.names ∧ claim.name ∉ setting.markers) {error : QueryError}
    (denies : (parameters.grantAll (claimsOf setting first)).Denies setting.markers request.claims
      error) :
    ∃ parameter, error = .conflict criterion.name parameter (.criterion criterion.name) := by
  obtain ⟨here, before⟩ := List.forall_mem_cons.mp sole
  have own : ∀ other ∈ claimsOf setting first ++ request.claims, other.criterion = criterion.name := by
    intro other among
    rcases List.mem_append.mp among with earlier | claimed
    · obtain ⟨visit, visited, _, asked, claimed⟩ := mem_claimsOf.mp earlier
      rw [Visit.criterion_of_claim asked claimed, before visit visited]
    · rw [Visit.criterion_of_claim asked claimed, here]
  obtain ⟨front, claim, back, owner, claims, contested, rfl⟩ := denies.split
  obtain ⟨new, unmarked⟩ := unused claim (claims ▸ List.mem_append_right _ List.mem_cons_self)
  rw [claims, ← List.append_assoc] at own
  obtain ⟨earlier, others⟩ := List.forall_mem_append.mp own
  cases contested with
  | marked marked => exact absurd marked unmarked
  | held member _ =>
    rw [ParameterMap.grantAll, ParameterMap.grantAll, ← List.foldl_append] at member
    rcases ParameterMap.mem_untyped_grantAll member with held | ⟨other, among, entry⟩
    · exact absurd held (ParameterMap.not_mem_untyped new _ _)
    · obtain ⟨_, rest⟩ := Prod.mk.inj entry
      obtain ⟨_, rfl⟩ := Prod.mk.inj rest
      exact ⟨claim.name, by rw [others claim List.mem_cons_self, earlier other among]⟩

end Constraint

namespace Model

open Constraint

variable {schema : Schema} {query : Query} {parameters : ParameterMap} {registry : Registry}
  {scope : Scope} {security : SecurityContext} {bound : Model} {criterion : Criterion}

/-- If a visit is not answered, its criterion fails for the range. -/
theorem bind_unanswered (bind : Model.bind schema query parameters = .ok bound) {visit : Visit}
    {error : QueryError} :
    let setting := bound.setting schema registry scope security
    visit ∈ setting.visits → visit.offer setting = .error error →
      ∃ entity, visit.criterion.contribute (contextOf setting entity visit.range) = .error error := by
  intro setting visited fails
  obtain ⟨range, listed, _, place, _⟩ := (bind_visits bind).mp visited
  obtain ⟨entity, known⟩ := ofTree_entities (bind_ofTree bind) range listed
  have offer : visit.offer setting = if visit.criterion.appliesTo entity then
      visit.criterion.contribute (contextOf setting entity visit.range) else return none := by
    have here : visit = ⟨range.name, visit.criterion⟩ := by rw [← place]
    rw [here, bind_offer bind listed, known]
  rw [offer] at fails
  split at fails
  · exact ⟨entity, fails⟩
  · cases fails

section

variable (bind : Model.bind schema query parameters = .ok bound)
  (only : registry.criteria = [criterion])

include bind only

/-- A criterion that is alone visits the covered ranges. -/
theorem bind_visits_alone {visit : Visit} :
    visit ∈ (bound.setting schema registry scope security).visits ↔
      ∃ range ∈ bound.ranges, scope.Covers range ∧ visit = ⟨range.name, criterion⟩ := by
  have alone : bound.pending registry = [criterion] := (bind_pending bind registry).trans only
  simp only [bind_visits bind, alone, List.mem_singleton]
  refine exists_congr fun range => and_congr_right fun _ => and_congr_right fun _ => ?_
  constructor
  · rintro ⟨place, rfl⟩
    rw [← place]
  · rintro rfl
    exact ⟨rfl, rfl⟩

theorem bind_sole {before after : List Visit} {visit : Visit}
    (split : (bound.setting schema registry scope security).visits = before ++ visit :: after) :
    ∀ other ∈ visit :: before, other.criterion = criterion := by
  intro other among
  have visited : other ∈ (bound.setting schema registry scope security).visits := by
    rw [split]
    rcases List.mem_cons.mp among with rfl | earlier
    · exact List.mem_append_right _ List.mem_cons_self
    · exact List.mem_append_left _ earlier
  obtain ⟨range, _, _, rfl⟩ := (bind_visits_alone bind only).mp visited
  rfl

theorem bind_asked_alone {range : BoundRange} (listed : range ∈ bound.ranges) {claim : Claim} :
    let setting := bound.setting schema registry scope security
    Asked setting range claim ↔ ∃ request,
      (Visit.mk range.name criterion).request? setting = some request ∧ claim ∈ request.claims := by
  have alone : bound.pending registry = [criterion] := (bind_pending bind registry).trans only
  simp only [bind_asked_iff bind listed, alone, List.mem_singleton, exists_eq_left]

/-- If a criterion that is alone cannot be applied, it fails for a covered range, or is denied what it asks
for because of it, after it was granted what it asked for before. -/
theorem constrain_alone_error {error : QueryError}
    (fails : bound.constrain schema registry scope security = .error error) :
    let setting := bound.setting schema registry scope security
    setting.Satisfied ∧ error.OfLookup ∨
      ∃ before range after, setting.visits = before ++ ⟨range.name, criterion⟩ :: after ∧
        range ∈ bound.ranges ∧ scope.Covers range ∧ Granted setting bound.parameters before ∧
        ((∃ entity, criterion.contribute (contextOf setting entity range.name) = .error error) ∨
          ∃ request, (Visit.mk range.name criterion).request? setting = some request ∧
            (bound.parameters.grantAll (claimsOf setting before)).Denies setting.markers request.claims
              error) := by
  intro setting
  rcases constrain_blocked bind fails with ⟨split, granted, refused⟩ | satisfied
  · rename_i before after visit
    have visited : visit ∈ setting.visits := by
      rw [split]
      exact List.mem_append_right _ List.mem_cons_self
    obtain ⟨range, listed, covered, rfl⟩ := (bind_visits_alone bind only).mp visited
    refine .inr ⟨before, range, after, split, listed, covered, granted, ?_⟩
    cases refused with
    | unanswered unanswered => exact .inl (bind_unanswered bind visited unanswered)
    | denied asked denies => exact .inr ⟨_, asked, denies⟩
  · exact .inl satisfied

variable (standard : criterion.Standard)

include standard

omit bind in
/-- A criterion that is alone asks for no parameter with two values. -/
theorem consistent_alone :
    let setting := bound.setting schema registry scope security
    ParameterMap.Consistent (claimsOf setting setting.visits) := by
  have usual := setting_usual schema scope security bound fun other member =>
    (List.mem_singleton.mp (only ▸ member : other ∈ [criterion])) ▸ standard
  exact usual.consistent

/-- If a criterion that is alone is denied what it has itself, it asked for that because of another range
before, and it was the first to have it. -/
theorem repeats_of_constrain
    (foreign : ∀ entry ∈ bound.parameters.untyped, entry.2.2 ≠ .criterion criterion.name)
    {name parameter : String} (fails : bound.constrain schema registry scope security =
      .error (.conflict name parameter (.criterion criterion.name))) :
    let setting := bound.setting schema registry scope security
    ∃ first ∈ bound.ranges, ∃ second ∈ bound.ranges,
      first ≠ second ∧ scope.Covers first ∧ scope.Covers second ∧
      (∀ claim, Asked setting first claim →
        claim.name ∉ bound.parameters.names ∧ claim.name ∉ setting.markers) ∧
      ∃ claim, Asked setting first claim ∧ Asked setting second claim ∧ claim.value.HoldsNaN := by
  intro setting
  rcases constrain_alone_error bind only fails with ⟨_, looked⟩ | alone
  · cases looked
  obtain ⟨before, second, after, split, listed', covered', granted, refused⟩ := alone
  rcases refused with ⟨entity, fails⟩ | ⟨request', asked', denies⟩
  · obtain ⟨attr, missing⟩ := standard.contribute_error fails
    cases missing
  obtain ⟨claim, repeated, claimed', holds⟩ :=
    repeats_of_denies standard (bind_sole bind only split) foreign asked' denies
  obtain ⟨visit, among, request, asked, claimed⟩ := mem_claimsOf.mp repeated
  have visited : visit ∈ setting.visits := by
    rw [split]
    exact List.mem_append_left _ among
  obtain ⟨first, listed, covered, rfl⟩ := (bind_visits_alone bind only).mp visited
  have differs : first ≠ second := by
    rintro rfl
    have distinct : setting.visits.Nodup := .of_map _ ((Reachable.bound bind).nodup_visits _ _ _ _)
    rw [split, List.nodup_append] at distinct
    exact distinct.2.2 _ among _ List.mem_cons_self rfl
  have asks : claimsOf setting before ⊆ claimsOf setting setting.visits := by
    rw [split, claimsOf_append]
    exact List.subset_append_left _ _
  have consistent : ParameterMap.Consistent (claimsOf setting setting.visits) :=
    consistent_alone only standard
  refine ⟨first, listed, second, listed', differs, covered, covered', fun wanted wants => ?_, claim,
    (bind_asked_alone bind only listed).mpr ⟨request, asked, claimed⟩,
    (bind_asked_alone bind only listed').mpr ⟨request', asked', claimed'⟩, holds⟩
  -- the first range got all that the criterion asks for because of it
  obtain ⟨other, again, claims⟩ := (bind_asked_alone bind only listed).mp wants
  have granted := ((ParameterMap.accepts_iff (consistent.of_subset asks)).mp granted.2).1 wanted
    (mem_claimsOf.mpr ⟨_, among, other, again, claims⟩)
  refine granted.unused fun entry held => ?_
  rw [Visit.criterion_of_claim again claims]
  exact foreign entry held

/-- What is not a number is not granted twice, not even to a criterion that is alone. -/
theorem constrain_of_repeats {first second : BoundRange} (listed : first ∈ bound.ranges)
    (listed' : second ∈ bound.ranges) (differs : first ≠ second) (covered : scope.Covers first)
    (covered' : scope.Covers second) :
    let setting := bound.setting schema registry scope security
    (∀ claim, Asked setting first claim →
      claim.name ∉ bound.parameters.names ∧ claim.name ∉ setting.markers) →
    ∀ claim, Asked setting first claim → Asked setting second claim → claim.value.HoldsNaN →
      ∃ parameter, bound.constrain schema registry scope security =
        .error (.conflict criterion.name parameter (.criterion criterion.name)) := by
  intro setting unused claim asks asks' holds
  obtain ⟨request, asked, claimed⟩ := (bind_asked_alone bind only listed).mp asks
  obtain ⟨request', asked', claimed'⟩ := (bind_asked_alone bind only listed').mp asks'
  have unsatisfied : ¬ setting.Satisfied := by
    intro satisfied
    have apart : (⟨first.name, criterion⟩ : Visit) ≠ ⟨second.name, criterion⟩ := fun same =>
      differs (eq_of_name (ofTree_nodup bind) listed listed' (congrArg Visit.range same))
    have compatible := compatible_of_accepts (consistent_alone only standard) satisfied.2
      ((bind_visits_alone bind only).mpr ⟨first, listed, covered, rfl⟩)
      ((bind_visits_alone bind only).mpr ⟨second, listed', covered', rfl⟩) apart asked asked' claimed
      claimed'
    exact (Value.same_self_iff _).mp (compatible rfl (unused claim asks).1).2 holds
  cases constrain : bound.constrain schema registry scope security with
  | ok model => exact absurd (constrain_grants bind constrain).1 unsatisfied
  | error error =>
    obtain ⟨before, range, after, split, _, _, _, refused⟩ :=
      (constrain_alone_error bind only constrain).resolve_left fun found => unsatisfied found.1
    rcases refused with ⟨entity, fails⟩ | ⟨request'', asked'', denies⟩
    · obtain ⟨contribution, offer, _⟩ := Visit.request?_eq_some.mp asked
      obtain ⟨_, answers⟩ := Visit.contributed offer
      obtain ⟨_, answered⟩ : ∃ offer, criterion.contribute (contextOf setting entity range.name) =
          .ok offer := standard.contribute_answers (by rfl) (by rfl) answers
      cases fails.symm.trans answered
    · have unused' : ∀ claim ∈ request''.claims,
          claim.name ∉ bound.parameters.names ∧ claim.name ∉ setting.markers := by
        rw [Visit.claims_eq standard (by rfl) asked asked'']
        exact fun claim claimed =>
          unused claim ((bind_asked_alone bind only listed).mpr ⟨request, asked, claimed⟩)
      obtain ⟨parameter, rfl⟩ := owner_of_denies (bind_sole bind only split) asked'' unused' denies
      exact ⟨parameter, rfl⟩

end

/-- A criterion that comes with the engine is in conflict with itself if and only if two covered ranges make
it ask for a parameter whose value is not a number, or is a list with such a value, and nobody else is in
its way. -/
theorem constrain_repeats_iff (standard : criterion.Standard)
    (only : registry.criteria = [criterion])
    (bind : Model.bind schema query parameters = .ok bound)
    (foreign : ∀ entry ∈ parameters.entries, entry.2.owner ≠ .criterion criterion.name) :
    let setting := bound.setting schema registry scope security
    (∃ name parameter, bound.constrain schema registry scope security =
      .error (.conflict name parameter (.criterion criterion.name))) ↔
    ∃ first ∈ bound.ranges, ∃ second ∈ bound.ranges,
      first ≠ second ∧ scope.Covers first ∧ scope.Covers second ∧
      (∀ claim, Asked setting first claim →
        claim.name ∉ parameters.names ∧ claim.name ∉ setting.markers) ∧
      ∃ claim, Asked setting first claim ∧ Asked setting second claim ∧ claim.value.HoldsNaN := by
  intro setting
  have same : bound.parameters.untyped = parameters.untyped := ofTree_untyped bind
  have foreign : ∀ entry ∈ bound.parameters.untyped, entry.2.2 ≠ .criterion criterion.name := by
    rw [same]
    exact List.forall_mem_map.mpr foreign
  rw [← ParameterMap.names_eq_of_untyped same]
  constructor
  · rintro ⟨name, parameter, fails⟩
    exact repeats_of_constrain bind only standard foreign fails
  · rintro ⟨first, listed, second, listed', differs, covered, covered', unused, claim, asked, asked',
      holds⟩
    obtain ⟨parameter, fails⟩ := constrain_of_repeats bind only standard listed listed' differs covered
      covered' unused claim asked asked' holds
    exact ⟨criterion.name, parameter, fails⟩

end Model

/-- A policy that compares with what is not a number is in conflict with itself about a query with two
customers. -/
theorem Model.constrain_repeats_iff_shop :
    let criterion := (RowPolicy.own "own").criterion
    let security := (SecurityContext.ofPrincipal "ann").withAttribute "label" (.float64 .nan)
    ∃ query bound nodup,
      Query.parse "select c from Customer c join Customer d on d.name = c.name" 0 = .ok query ∧
      Model.bind .shop query .empty = .ok bound ∧
      bound.constrain .shop ⟨[criterion], nodup⟩ .standard security =
        .error (.conflict "own" "criterion_own_label" (.criterion "own")) ∧
      let setting := bound.setting .shop ⟨[criterion], nodup⟩ .standard security
      ∃ first ∈ bound.ranges, ∃ second ∈ bound.ranges, first ≠ second ∧ ∃ claim,
        Constraint.Asked setting first claim ∧ Constraint.Asked setting second claim ∧
          claim.value.HoldsNaN := by
  have runs : ((Query.parse "select c from Customer c join Customer d on d.name = c.name" 0).toOption.bind
      fun query => (Model.bind .shop query .empty).toOption.map fun bound =>
        (bound.constrain .shop
          ⟨[(RowPolicy.own "own").criterion], (by decide : ["own"].Nodup)⟩ .standard
          ((SecurityContext.ofPrincipal "ann").withAttribute "label" (.float64 .nan))).map fun _ => ()) =
      some (.error (.conflict "own" "criterion_own_label" (.criterion "own"))) := by
    decide +kernel
  obtain ⟨query, parsed, runs⟩ := Option.bind_eq_some_iff.mp runs
  obtain ⟨bound, bind, fails⟩ := Option.map_eq_some_iff.mp runs
  have fails := error_of_map fails
  obtain ⟨first, listed, second, listed', differs, _, _, _, twice⟩ :=
    (Model.constrain_repeats_iff (.policy (RowPolicy.own "own")) (by rfl) (ok_of_toOption bind)
      (List.forall_mem_nil _)).mp ⟨"own", _, fails⟩
  exact ⟨query, bound, _, ok_of_toOption parsed, ok_of_toOption bind, fails, first, listed, second, listed',
    differs, twice⟩

end QueryGuard
