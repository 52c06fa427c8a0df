import QueryGuard.Proofs.Rewriting.Outcome
import QueryGuard.Proofs.Rewriting.Rearranging
/-!
What criteria of different names ask for: nobody asks for a parameter with two values, and a parameter
that is granted is of one criterion. So the types that are noted for a parameter do not depend on the
order of the criteria.
-/

set_option autoImplicit false

namespace QueryGuard

namespace Constraint

namespace Request

variable (request : Request)

/-- The names of the markers in the condition. -/
def markers : List String := request.contribution.predicate.markers.map (·.value)

end Request

variable {setting : Setting}

/-! ### Criteria of different names -/

/-- The criteria come with the engine, and have different names. -/
structure Setting.Usual (setting : Setting) : Prop where
  standard : ∀ criterion ∈ setting.criteria, criterion.Standard
  nodup : (setting.criteria.map (·.name)).Nodup

/-- What a visit is answered with is what its criterion contributes for an entity. -/
theorem Visit.contributed {visit : Visit} {contribution : Contribution}
    (offer : visit.offer setting = .ok (some contribution)) :
    ∃ entity, visit.criterion.contribute (contextOf setting entity visit.range) =
      .ok (some contribution) := by
  rw [Visit.offer_eq] at offer
  obtain ⟨subject, _, answers⟩ := ok_of_bind offer
  cases subject with
  | none => cases answers
  | some entity => exact ⟨entity, answers⟩

/-- A request is what a criterion of the setting contributes for a range. -/
theorem Setting.contributed {request : Request} (member : request ∈ setting.requests) :
    ∃ criterion ∈ setting.criteria, ∃ entity, request.criterion = criterion.name ∧
      criterion.contribute (contextOf setting entity request.range) =
        .ok (some request.contribution) := by
  obtain ⟨visit, listed, offer, range, named⟩ := Setting.request_of_mem member
  obtain ⟨name, _, among⟩ := List.mem_flatMap.mp listed
  obtain ⟨criterion, pending, rfl⟩ := List.mem_map.mp among
  obtain ⟨entity, answers⟩ := Visit.contributed offer
  exact ⟨criterion, pending, entity, named, range ▸ answers⟩

namespace Setting.Usual

variable (usual : setting.Usual)

include usual

theorem simple {request : Request} (member : request ∈ setting.requests) :
    request.contribution.Simple request.range := by
  obtain ⟨criterion, pending, entity, _, answers⟩ := Setting.contributed member
  exact (usual.standard criterion pending).simple answers

/-- The condition of a request mentions parameters that it claims. -/
theorem markers_subset {request : Request} (member : request ∈ setting.requests) :
    request.markers ⊆ request.claims.map (·.name) := by
  obtain ⟨criterion, pending, entity, _, answers⟩ := Setting.contributed member
  have names : request.claims.map (·.name) = request.contribution.parameters.map (·.1) := by
    rw [Request.claims, List.map_map]
    rfl
  rw [names]
  exact (usual.standard criterion pending).markers_subset answers

/-- A criterion asks for a parameter with one value only, whichever ranges it is applied to. -/
theorem consistent : ParameterMap.Consistent (setting.requests.flatMap Request.claims) := by
  intro first member second member' name criterion
  obtain ⟨request, asked, claimed⟩ := List.mem_flatMap.mp member
  obtain ⟨request', asked', claimed'⟩ := List.mem_flatMap.mp member'
  obtain ⟨parameter, listed, rfl⟩ := List.mem_map.mp claimed
  obtain ⟨parameter', listed', rfl⟩ := List.mem_map.mp claimed'
  have owner : request.criterion = request'.criterion := criterion
  have named : parameter.1 = parameter'.1 := name
  obtain ⟨rule, pending, entity, ofRule, answers⟩ := Setting.contributed asked
  obtain ⟨rule', pending', entity', ofRule', answers'⟩ := Setting.contributed asked'
  obtain rfl : rule = rule' := List.inj_on_of_nodup_map usual.nodup pending pending'
    (ofRule.symm.trans (owner.trans ofRule'))
  have standard := usual.standard rule pending
  have same : request'.contribution.parameters = request.contribution.parameters :=
    standard.parameters_eq (by rfl) (by rfl) (by rfl) answers answers'
  rw [same] at listed'
  have value : parameter = parameter' :=
    List.inj_on_of_nodup_map (standard.parameters_nodup answers) listed listed' named
  rw [value, owner]

end Setting.Usual

/-- Claims to one parameter that are granted are of one criterion. -/
theorem owner_eq {markers : List String} {parameters : ParameterMap} {claims : List Claim}
    (consistent : ParameterMap.Consistent claims) (accepts : parameters.Accepts markers claims)
    {first second : Claim} (member : first ∈ claims) (member' : second ∈ claims)
    (named : first.name = second.name) : first.criterion = second.criterion := by
  obtain ⟨admissible, compatible⟩ := (ParameterMap.accepts_iff consistent).mp accepts
  by_cases there : first.name ∈ parameters.names
  · rw [← parameters.names_untyped] at there
    obtain ⟨⟨name, kept, owner⟩, among, is⟩ := List.mem_map.mp there
    have named' : name = first.name := is
    have ofFirst := ((admissible first member).own kept owner (named' ▸ among)).1
    have ofSecond := ((admissible second member').own kept owner (named ▸ named' ▸ among)).1
    exact Owner.criterion.inj (ofFirst.symm.trans ofSecond)
  · by_cases same : first = second
    · rw [same]
    · have _symmetric : Std.Symm (Claim.Compatible parameters) := ⟨fun _ _ => Claim.Compatible.symm⟩
      rw [(compatible.forall member member' same named there).1]

/-- No parameter is mentioned for two criteria. -/
def Unshared (requests : List Request) : Prop :=
  ∀ first ∈ requests, ∀ second ∈ requests, ∀ name ∈ first.markers, name ∈ second.markers →
    first.criterion = second.criterion

theorem Unshared.of_subset {requests others : List Request} (unshared : Unshared requests)
    (among : others ⊆ requests) : Unshared others :=
  fun first member second member' => unshared first (among member) second (among member')

theorem Setting.Usual.unshared (usual : setting.Usual) (satisfied : setting.Satisfied) :
    Unshared setting.requests := by
  intro first member second member' name marked marked'
  obtain ⟨claim, claimed, rfl⟩ := List.mem_map.mp (usual.markers_subset member marked)
  obtain ⟨claim', claimed', named⟩ := List.mem_map.mp (usual.markers_subset member' marked')
  have owner := owner_eq usual.consistent satisfied.2
    (List.mem_flatMap.mpr ⟨first, member, claimed⟩)
    (List.mem_flatMap.mpr ⟨second, member', claimed'⟩) named.symm
  obtain ⟨_, _, rfl⟩ := List.mem_map.mp claimed
  obtain ⟨_, _, rfl⟩ := List.mem_map.mp claimed'
  exact owner

/-! ### The order of criteria -/

/-- If at most one item of a list yields anything, the order of the list does not matter. -/
theorem flatMap_eq_of_perm {α β : Type} {items items' : List α} {f : α → List β} {p : α → Bool}
    (same : items.Perm items') (few : (items.filter p).length ≤ 1)
    (silent : ∀ x ∈ items, p x = false → f x = []) : items.flatMap f = items'.flatMap f := by
  have filtered : ∀ items : List α, (∀ x ∈ items, p x = false → f x = []) →
      items.flatMap f = (items.filter p).flatMap f := by
    intro items silent
    induction items with
    | nil => rfl
    | cons x rest ih =>
      obtain ⟨here, others⟩ := List.forall_mem_cons.mp silent
      cases chosen : p x with
      | true => rw [List.filter_cons_of_pos chosen, List.flatMap_cons, List.flatMap_cons, ih others]
      | false =>
        rw [List.filter_cons_of_neg (by simp [chosen]), List.flatMap_cons, here chosen, ih others,
          List.nil_append]
  have both := same.filter p
  rw [filtered items silent, filtered items' fun x member => silent x (same.mem_iff.mpr member)]
  generalize items.filter p = chosen at few both
  match chosen, few with
  | [], _ => rw [List.nil_perm.mp both]
  | [only], _ => rw [List.singleton_perm.mp both]

/-- Items that are told apart by what they have in common are one at most. -/
theorem length_le_one {α β : Type} {items : List α} {f : α → β} (distinct : (items.map f).Nodup)
    (same : ∀ x ∈ items, ∀ y ∈ items, f x = f y) : items.length ≤ 1 := by
  match items, distinct, same with
  | [], _, _ => exact Nat.zero_le 1
  | [_], _, _ => exact Nat.le_refl 1
  | x :: y :: rest, distinct, same =>
    have among : y ∈ x :: y :: rest := List.mem_cons_of_mem _ List.mem_cons_self
    exact absurd (List.mem_cons.mpr (.inl (same x List.mem_cons_self y among)))
      (List.nodup_cons.mp distinct).1

end Constraint

namespace Binding

open Constraint

variable {setting : Binding.Setting} {schema : Schema} {requests others : List Request}

theorem typesFor_append (schema : Schema) (name : String) (actions others : List Action) :
    typesFor schema name (actions ++ others) =
      typesFor schema name actions ++ typesFor schema name others := by
  rw [typesFor, typesOf_append, List.filter_append]
  rfl

theorem typesFor_flatMap {α : Type} (schema : Schema) (name : String) (items : List α)
    (actions : α → List Action) : typesFor schema name (items.flatMap actions) =
      items.flatMap fun x => typesFor schema name (actions x) := by
  rw [typesFor, typesOf, List.filterMap_flatMap, List.filter_flatMap]
  rfl

/-- A condition notes no type for a parameter that it does not mention. -/
theorem typesFor_worded {request : Request} (simple : request.contribution.Simple request.range)
    {name : String} (unmarked : name ∉ request.markers) (naming : Naming) (visible : Visible) :
    typesFor schema name (conditionActions setting (request.worded naming) visible) = [] := by
  apply typesFor_conditionActions
  rw [Request.worded, simple.markers_worded]
  exact unmarked

/-- The types that are noted for a parameter do not depend on the order of criteria that are applied to
a range. -/
theorem typesFor_requests (same : requests.Perm others) (apart : (requests.map (·.criterion)).Nodup)
    (unshared : Unshared requests) (naming : Naming)
    (simple : ∀ request ∈ requests, request.contribution.Simple request.range) (name : String)
    (visible : Visible) :
    typesFor schema name
        ((requests.map (·.worded naming)).flatMap (conditionActions setting · visible)) =
      typesFor schema name
        ((others.map (·.worded naming)).flatMap (conditionActions setting · visible)) := by
  have few : (requests.filter fun request => name ∈ request.markers).length ≤ 1 := by
    refine length_le_one (apart.sublist (List.filter_sublist.map _)) fun first member second member' => ?_
    obtain ⟨asked, marked⟩ := List.mem_filter.mp member
    obtain ⟨asked', marked'⟩ := List.mem_filter.mp member'
    exact unshared first asked second asked' name (of_decide_eq_true marked)
      (of_decide_eq_true marked')
  rw [typesFor_flatMap, typesFor_flatMap, List.flatMap_map, List.flatMap_map]
  exact flatMap_eq_of_perm same few fun request member unmarked =>
    typesFor_worded (simple request member) (of_decide_eq_false unmarked) naming visible

end Binding

end QueryGuard
