import QueryGuard.Proofs.Engine.Handover
import QueryGuard.Proofs.Rewriting.Granting
/-!
The order of the parameters that criteria add. Ranges are visited one after the other, and all criteria in
the order of the registry for each of them. So what counts first is the range because of which a parameter
is asked for, and only for the same range the registry.
-/

set_option autoImplicit false

namespace QueryGuard

/-! ### First occurrences -/

section

variable {α β : Type} [BEq α] [LawfulBEq α] {first second : α}

/-- What occurs in the front comes before what does not. -/
theorem idxOf_append_lt {front : List α} (rest : List α) (member : first ∈ front)
    (absent : second ∉ front) :
    (front ++ rest).idxOf first < (front ++ rest).idxOf second := by
  rw [List.idxOf_append_of_mem member, List.idxOf_append_of_notMem absent]
  have := List.idxOf_lt_length_of_mem member
  omega

/-- If the first of two occurs before the second wherever both occur, then it occurs before in all exactly
if its first group is not behind that of the second. -/
theorem idxOf_flatMap_lt {group : β → List α} {items : List β} {one two : β → Bool}
    (there : first ∈ items.flatMap group)
    (ones : ∀ item ∈ items, first ∈ group item ↔ one item = true)
    (twos : ∀ item ∈ items, second ∈ group item ↔ two item = true)
    (within : ∀ item ∈ items, first ∈ group item →
      (group item).idxOf first < (group item).idxOf second) :
    (items.flatMap group).idxOf first < (items.flatMap group).idxOf second ↔
      items.findIdx one ≤ items.findIdx two := by
  induction items with
  | nil => cases there
  | cons item items ih =>
    obtain ⟨isOne, ones⟩ := List.forall_mem_cons.mp ones
    obtain ⟨isTwo, twos⟩ := List.forall_mem_cons.mp twos
    obtain ⟨here, within⟩ := List.forall_mem_cons.mp within
    rw [List.flatMap_cons, List.findIdx_cons, List.findIdx_cons]
    cases hereOne : one item with
    | true =>
      have member := isOne.mpr hereOne
      have before : (group item ++ items.flatMap group).idxOf first <
          (group item ++ items.flatMap group).idxOf second := by
        rw [List.idxOf_append_of_mem member, List.idxOf_append]
        have := here member
        have := List.idxOf_lt_length_of_mem member
        split <;> omega
      exact iff_of_true before (Nat.zero_le _)
    | false =>
      have absent : first ∉ group item := fun among => by simp [isOne.mp among] at hereOne
      cases hereTwo : two item with
      | true =>
        have after := idxOf_append_lt (items.flatMap group) (isTwo.mpr hereTwo) absent
        exact iff_of_false (Nat.lt_asymm after) (Nat.not_succ_le_zero _)
      | false =>
        have absent' : second ∉ group item := fun among => by simp [isTwo.mp among] at hereTwo
        have further := (List.mem_append.mp there).resolve_left absent
        rw [List.idxOf_append_of_notMem absent, List.idxOf_append_of_notMem absent',
          Nat.add_lt_add_iff_left, ih further ones twos within]
        exact (Nat.add_le_add_iff_right (n := 1)).symm

end

/-- Two elements of a list without repetitions stand in the order of their places. -/
theorem pair_sublist_iff {α : Type} [BEq α] [LawfulBEq α] {items : List α} (distinct : items.Nodup)
    {first second : α} (here : first ∈ items) (there : second ∈ items) :
    [first, second].Sublist items ↔ items.idxOf first < items.idxOf second := by
  induction items with
  | nil => cases here
  | cons item items ih =>
    obtain ⟨new, distinct⟩ := List.nodup_cons.mp distinct
    by_cases one : item = first
    · subst one
      rw [List.cons_sublist_cons, List.singleton_sublist, List.idxOf_cons_self]
      by_cases two : item = second
      · subst two
        simp [new]
      · rw [List.idxOf_cons_ne _ two]
        simpa [Ne.symm two] using there
    · have first' : first ∈ items := (List.mem_cons.mp here).resolve_left (Ne.symm one)
      have skipped : [first, second].Sublist (item :: items) ↔ [first, second].Sublist items :=
        ⟨fun before => before.of_cons_of_ne (Ne.symm one), fun before => before.cons _⟩
      rw [skipped, List.idxOf_cons_ne _ one]
      by_cases two : item = second
      · subst two
        simpa using fun before : [first, item].Sublist items =>
          new (before.subset (List.mem_cons_of_mem _ List.mem_cons_self))
      · have second' : second ∈ items := (List.mem_cons.mp there).resolve_left (Ne.symm two)
        rw [List.idxOf_cons_ne _ two, ih distinct first' second']
        omega

namespace ParameterMap

variable {parameters : ParameterMap} {claims : List Claim} {first second : String}

/-- Two parameters stand in the order of the places of their names. -/
theorem sublist_names_iff (parameters : ParameterMap) {first second : String × Binding}
    (here : first ∈ parameters.entries) (there : second ∈ parameters.entries) :
    [first, second].Sublist parameters.entries ↔
      parameters.names.idxOf first.1 < parameters.names.idxOf second.1 := by
  have unique : ∀ {entry other : String × Binding}, entry ∈ parameters.entries →
      other ∈ parameters.entries → entry.1 = other.1 → entry = other :=
    fun among among' same => List.inj_on_of_nodup_map parameters.nodup among among' same
  rw [names, ← pair_sublist_iff parameters.nodup (List.mem_map_of_mem here) (List.mem_map_of_mem there)]
  constructor
  · exact fun before => before.map Prod.fst
  · intro before
    obtain ⟨pair, among, same⟩ := List.sublist_map_iff.mp before
    obtain ⟨entry, rest, rfl, named, same⟩ := List.map_eq_cons_iff.mp same.symm
    obtain ⟨other, rest, rfl, named', same⟩ := List.map_eq_cons_iff.mp same
    obtain rfl := List.map_eq_nil_iff.mp same
    have first' := unique (among.subset List.mem_cons_self) here named
    have second' := unique (among.subset (List.mem_cons_of_mem _ List.mem_cons_self)) there named'
    rwa [first', second'] at among

/-- What is there stays in its place. -/
theorem idxOf_grantAll_lt (there : first ∈ parameters.names) (new : second ∉ parameters.names)
    (claims : List Claim) :
    (parameters.grantAll claims).names.idxOf first <
      (parameters.grantAll claims).names.idxOf second := by
  obtain ⟨added, further⟩ := parameters.entries_grantAll_of_names claims
  have names : (parameters.grantAll claims).names = parameters.names ++ added.map (·.1) := by
    rw [ParameterMap.names, further parameters rfl, List.map_append]
    rfl
  rw [names]
  exact idxOf_append_lt _ there new

/-- Parameters that are added have the order in which they are asked for first. -/
theorem idxOf_grantAll (new : first ∉ parameters.names) (new' : second ∉ parameters.names)
    (asked : first ∈ claims.map (·.name)) (asked' : second ∈ claims.map (·.name)) :
    (parameters.grantAll claims).names.idxOf first <
        (parameters.grantAll claims).names.idxOf second ↔
      (claims.map (·.name)).idxOf first < (claims.map (·.name)).idxOf second := by
  induction claims generalizing parameters with
  | nil => cases asked
  | cons claim rest ih =>
    change ((parameters.grant claim).grantAll rest).names.idxOf first <
      ((parameters.grant claim).grantAll rest).names.idxOf second ↔ _
    rw [List.map_cons]
    have granted : ∀ {name : String}, name ∉ parameters.names → claim.name ≠ name →
        name ∉ (parameters.grant claim).names := by
      intro name absent differs among
      exact (mem_names_grant.mp among).elim absent (Ne.symm differs)
    by_cases one : claim.name = first
    · subst one
      by_cases two : claim.name = second
      · subst two
        simp
      · have before := idxOf_grantAll_lt (mem_names_grant.mpr (.inr rfl)) (granted new' two) rest
        rw [List.idxOf_cons_self, List.idxOf_cons_ne _ two]
        exact iff_of_true before (Nat.succ_pos _)
    · by_cases two : claim.name = second
      · subst two
        have before := idxOf_grantAll_lt (mem_names_grant.mpr (.inr rfl)) (granted new one) rest
        rw [List.idxOf_cons_self]
        exact iff_of_false (Nat.lt_asymm before) (Nat.not_lt_zero _)
      · rw [List.idxOf_cons_ne _ one, List.idxOf_cons_ne _ two,
          ih (granted new one) (granted new' two)
            ((List.mem_cons.mp asked).resolve_left (Ne.symm one))
            ((List.mem_cons.mp asked').resolve_left (Ne.symm two))]
        omega

end ParameterMap

/-! ### Ranges and criteria -/

namespace Constraint

variable {setting : Setting}

/-- The criterion asks for a parameter of the name because of the range. -/
def Setting.asks (setting : Setting) (criterion : Criterion) (name range : String) : Bool :=
  match (Visit.mk range criterion).offer setting with
  | .ok (some contribution) => contribution.parameters.any (·.1 == name)
  | _ => false

/-- The names that all criteria ask for because of the range, in the order of the criteria. -/
def Setting.wanted (setting : Setting) (range : String) : List String :=
  (claimsOf setting (setting.visitsTo range)).map (·.name)

theorem claimsOf_flatMap {α : Type} (visits : α → List Visit) (items : List α) :
    claimsOf setting (items.flatMap visits) = items.flatMap fun item => claimsOf setting (visits item) := by
  rw [claimsOf, requestsOf, List.filterMap_flatMap, List.flatMap_assoc]
  rfl

theorem names_claims :
    (claimsOf setting setting.visits).map (·.name) = setting.reached.flatMap setting.wanted := by
  rw [Setting.visits, claimsOf_flatMap, List.map_flatMap]
  rfl

theorem mem_claims_iff {criterion : Criterion} {name range : String} :
    name ∈ (claimsOf setting [⟨range, criterion⟩]).map (·.name) ↔
      setting.asks criterion name range = true := by
  have requested : requestsOf setting [⟨range, criterion⟩] =
      ((Visit.mk range criterion).request? setting).toList := by
    rw [requestsOf, List.filterMap_cons, List.filterMap_nil]
    cases (Visit.mk range criterion).request? setting <;> rfl
  rw [claimsOf, requested, Setting.asks, Visit.request?]
  cases offered : (Visit.mk range criterion).offer setting with
  | error error => simp
  | ok found =>
    cases found with
    | none => simp
    | some contribution =>
      simp only [Option.toList_some, List.flatMap_singleton, Request.claims, List.map_map, List.mem_map,
        Function.comp_apply, List.any_eq_true, beq_iff_eq]

theorem wanted_eq (range : String) : setting.wanted range =
    setting.criteria.flatMap fun criterion =>
      (claimsOf setting [⟨range, criterion⟩]).map (·.name) := by
  have visits : setting.visitsTo range =
      setting.criteria.flatMap fun criterion => [(⟨range, criterion⟩ : Visit)] :=
    (List.flatMap_pure_eq_map _ _).symm
  rw [Setting.wanted, visits, claimsOf_flatMap, List.map_flatMap]

theorem mem_wanted {name range : String} : name ∈ setting.wanted range ↔
    ∃ criterion ∈ setting.criteria, setting.asks criterion name range = true := by
  simp only [wanted_eq, List.mem_flatMap, mem_claims_iff]

/-- What a criterion asks for because of a range that is reached is asked for. -/
theorem exists_claim {criterion : Criterion} {name range : String} (reached : range ∈ setting.reached)
    (member : criterion ∈ setting.criteria) (asks : setting.asks criterion name range = true) :
    ∃ claim ∈ claimsOf setting setting.visits, claim.name = name ∧
      claim.criterion = criterion.name := by
  obtain ⟨claim, claimed, named⟩ := List.mem_map.mp (mem_claims_iff.mpr asks)
  obtain ⟨request, requested, among⟩ := List.mem_flatMap.mp claimed
  obtain ⟨visit, only, _, _, owner⟩ := Setting.request_of_mem requested
  obtain rfl := List.mem_singleton.mp only
  obtain ⟨parameter, _, rfl⟩ := List.mem_map.mp among
  have visited : (⟨range, criterion⟩ : Visit) ∈ setting.visits :=
    List.mem_flatMap.mpr ⟨range, reached, List.mem_map_of_mem member⟩
  have requested' : request ∈ requestsOf setting setting.visits :=
    (List.singleton_sublist.mpr visited).filterMap _ |>.subset requested
  exact ⟨_, List.mem_flatMap.mpr ⟨request, requested', among⟩, named, owner⟩

/-- Nobody else asks for a parameter that a criterion asks for. -/
def Setting.Sole (setting : Setting) (criterion : Criterion) (name : String) : Prop :=
  criterion ∈ setting.criteria ∧ ∀ range ∈ setting.reached, ∀ other ∈ setting.criteria,
    setting.asks other name range = true → other = criterion

theorem Setting.Sole.mem_wanted_iff {criterion : Criterion} {name range : String}
    (sole : setting.Sole criterion name) (reached : range ∈ setting.reached) :
    name ∈ setting.wanted range ↔ setting.asks criterion name range = true := by
  rw [mem_wanted]
  exact ⟨fun ⟨other, among, asks⟩ => sole.2 range reached other among asks ▸ asks,
    fun asks => ⟨criterion, sole.1, asks⟩⟩

/-- Because of the same range, what the first of two criteria asks for comes first. -/
theorem idxOf_wanted_lt (distinct : (setting.criteria.map (·.name)).Nodup) {first second : Criterion}
    (registered : [first, second].Sublist setting.criteria) {name name' range : String}
    (reached : range ∈ setting.reached) (sole : setting.Sole first name)
    (sole' : setting.Sole second name') (asked : name ∈ setting.wanted range) :
    (setting.wanted range).idxOf name < (setting.wanted range).idxOf name' := by
  obtain ⟨front, back, split, inFront, behind⟩ := List.cons_sublist_iff.mp registered
  have apart : second ∉ front := by
    rw [split, List.map_append, List.nodup_append] at distinct
    intro among
    exact distinct.2.2 _ (List.mem_map_of_mem among) _
      (List.mem_map_of_mem (List.singleton_sublist.mp behind)) rfl
  have asks := (sole.mem_wanted_iff reached).mp asked
  rw [wanted_eq, split, List.flatMap_append]
  apply idxOf_append_lt
  · exact List.mem_flatMap.mpr ⟨first, inFront, mem_claims_iff.mpr asks⟩
  · intro among
    obtain ⟨other, listed, asked'⟩ := List.mem_flatMap.mp among
    have member : other ∈ setting.criteria := split ▸ List.mem_append_left _ listed
    exact apart (sole'.2 range reached other member (mem_claims_iff.mp asked') ▸ listed)

/-- Of two parameters, the one is asked for first whose criterion asks for it because of an earlier range,
or because of the same range and is registered before. -/
theorem idxOf_claims_lt (distinct : (setting.criteria.map (·.name)).Nodup) {first second : Criterion}
    (registered : [first, second].Sublist setting.criteria) {name name' : String}
    (sole : setting.Sole first name) (sole' : setting.Sole second name')
    (asked : name ∈ (claimsOf setting setting.visits).map (·.name)) :
    ((claimsOf setting setting.visits).map (·.name)).idxOf name <
        ((claimsOf setting setting.visits).map (·.name)).idxOf name' ↔
      setting.reached.findIdx (setting.asks first name) ≤
        setting.reached.findIdx (setting.asks second name') := by
  rw [names_claims] at asked ⊢
  exact idxOf_flatMap_lt asked (fun _ reached => sole.mem_wanted_iff reached)
    (fun _ reached => sole'.mem_wanted_iff reached)
    fun _ reached => idxOf_wanted_lt distinct registered reached sole sole'

end Constraint

namespace Model

open Constraint

variable {schema catalog : Schema} {query : Query} {parameters : ParameterMap} {registry : Registry}
  {scope : Scope} {security : SecurityContext} {bound model : Model}

/-- A parameter that a criterion owns, and the caller did not supply, is one that only this criterion asks
for. -/
theorem constrain_sole (bind : Model.bind schema query parameters = .ok bound)
    (constrain : bound.constrain catalog registry scope security = .ok model)
    {entry : String × Binding} (member : entry ∈ model.parameters.entries) {criterion : Criterion}
    (among : criterion ∈ registry.criteria) (owner : entry.2.owner = .criterion criterion.name)
    (new : entry.1 ∉ parameters.names) :
    let setting := bound.setting catalog registry scope security
    setting.Sole criterion entry.1 ∧
      entry.1 ∈ (claimsOf setting setting.visits).map (·.name) := by
  intro setting
  obtain ⟨satisfied, same⟩ := constrain_grants bind constrain
  have pending : setting.criteria = registry.criteria := bind_pending bind registry
  refine ⟨⟨pending ▸ among, fun range reached other member' asks => ?_⟩, ?_⟩
  · -- whoever else asks for the parameter and gets it would own it
    obtain ⟨claim, claimed, named, claimant⟩ := exists_claim reached member' asks
    obtain ⟨kept, granted, _⟩ := ParameterMap.exists_of_accepts satisfied.2 claimed
    have granted : (claim.name, kept, .criterion claim.criterion) ∈ model.parameters.untyped :=
      same ▸ granted
    obtain ⟨⟨name, binding⟩, listed, equal⟩ := List.mem_map.mp granted
    obtain ⟨rfl, rest⟩ := Prod.mk.inj equal
    obtain ⟨_, owner'⟩ := Prod.mk.inj rest
    have found := ParameterMap.get?_of_mem listed
    rw [named] at found
    obtain rfl := Option.some.inj (found.symm.trans (ParameterMap.get?_of_mem member))
    have names : other.name = criterion.name :=
      claimant ▸ Owner.criterion.inj (owner'.symm.trans owner)
    exact List.inj_on_of_nodup_map registry.nodup (pending ▸ member') among names
  · have there : entry.1 ∈ (bound.parameters.grantAll (claimsOf setting setting.visits)).names := by
      rw [← ParameterMap.names_eq_of_untyped same]
      exact List.mem_map_of_mem member
    refine (ParameterMap.mem_names_grantAll.mp there).resolve_left ?_
    rwa [ParameterMap.names_eq_of_untyped (ofTree_untyped bind)]

/-- Two parameters that criteria own, and the caller did not supply, have the order of the ranges because
of which they are asked for first, and only for the same range that of the registry. -/
theorem constrain_precedes (bind : Model.bind schema query parameters = .ok bound)
    (constrain : bound.constrain catalog registry scope security = .ok model)
    {a b : Criterion} (registered : [a, b].Sublist registry.criteria) {first second : String × Binding}
    (member : first ∈ model.parameters.entries) (member' : second ∈ model.parameters.entries)
    (owner : first.2.owner = .criterion a.name) (owner' : second.2.owner = .criterion b.name)
    (new : first.1 ∉ parameters.names) (new' : second.1 ∉ parameters.names) :
    let setting := bound.setting catalog registry scope security
    [first, second].Sublist model.parameters.entries ↔
      setting.reached.findIdx (setting.asks a first.1) ≤
        setting.reached.findIdx (setting.asks b second.1) := by
  intro setting
  have pending : setting.criteria = registry.criteria := bind_pending bind registry
  have untyped := (constrain_grants bind constrain).2
  obtain ⟨sole, asked⟩ := constrain_sole bind constrain member (registered.subset List.mem_cons_self)
    owner new
  obtain ⟨sole', asked'⟩ := constrain_sole bind constrain member'
    (registered.subset (List.mem_cons_of_mem _ List.mem_cons_self)) owner' new'
  have supplied : bound.parameters.names = parameters.names :=
    ParameterMap.names_eq_of_untyped (ofTree_untyped bind)
  have names := ParameterMap.names_eq_of_untyped untyped
  rw [← pending] at registered
  rw [model.parameters.sublist_names_iff member member', names,
    ParameterMap.idxOf_grantAll (supplied ▸ new) (supplied ▸ new') asked asked']
  exact idxOf_claims_lt (pending ▸ registry.nodup) registered sole sole' asked

/-- Parameters of criteria keep their order when a model is handed on. -/
theorem sublist_serialize {serialized : Serialized} (result : model.serialize = .ok serialized)
    {first second : String × Binding} (member : first ∈ serialized.parameters.entries)
    (member' : second ∈ serialized.parameters.entries) (owner : first.2.owner ≠ .caller)
    (owner' : second.2.owner ≠ .caller) :
    [first, second].Sublist serialized.parameters.entries ↔
      [first, second].Sublist model.parameters.entries := by
  let callers : String × Binding → Bool := fun entry =>
    decide (entry.2.owner = .caller ∧ entry.1 ∈ model.query.markers.map (·.value))
  let others : String × Binding → Bool := fun entry =>
    decide (entry.2.owner ≠ .caller ∧ entry.1 ∈ model.query.markers.map (·.value))
  have entries : serialized.parameters.entries = model.parameters.entries.filter callers ++
      model.parameters.entries.filter others := entries_serialize result
  have kept : ∀ entry ∈ serialized.parameters.entries, entry.2.owner ≠ .caller → others entry = true :=
    fun entry listed owner => decide_eq_true ⟨owner, ((mem_serialize result).mp listed).2⟩
  have pair : [first, second].filter others = [first, second] := by
    simp only [List.filter_cons, kept first member owner, kept second member' owner', List.filter_nil,
      ↓reduceIte]
  constructor
  · intro before
    have further := before.filter others
    have none : (model.parameters.entries.filter callers).filter others = [] := by
      rw [List.filter_filter, List.filter_eq_nil_iff]
      intro entry _
      simp only [callers, others, Bool.and_eq_true, decide_eq_true_eq]
      exact fun both => both.1.1 both.2.1
    rw [pair, entries, List.filter_append, none, List.nil_append] at further
    exact further.trans (List.filter_sublist.trans List.filter_sublist)
  · intro before
    rw [entries]
    have further := before.filter others
    rw [pair] at further
    exact further.trans (List.sublist_append_right _ _)

end Model

namespace Engine

variable {engine : Engine}

/-- Of two parameters of a guarded query that criteria added, one of a criterion comes before one of a
criterion registered later exactly if the first range because of which it is asked for is not behind that
of the other. In particular it does if both are asked for because of the same range first. -/
theorem guard_precedes {cache : Option ParseCache} (reachable : engine.Reachable cache) {source : String}
    {parameters : ParameterMap} {security : SecurityContext} {guarded : Guarded}
    (guards : (engine.guard source parameters security cache).1 = .ok guarded) :
    ∃ query bound, Query.parse source engine.settings.depth = .ok query ∧
      Model.bind engine.schema query parameters = .ok bound ∧
      let setting := bound.setting engine.schema engine.registry engine.settings.scope security
      ∀ a b : Criterion, [a, b].Sublist engine.registry.criteria →
        ∀ first ∈ guarded.parameters.entries, ∀ second ∈ guarded.parameters.entries,
          first.2.owner = .criterion a.name → second.2.owner = .criterion b.name →
          first.1 ∉ parameters.names → second.1 ∉ parameters.names →
            ([first, second].Sublist guarded.parameters.entries ↔
              setting.reached.findIdx (setting.asks a first.1) ≤
                setting.reached.findIdx (setting.asks b second.1)) := by
  obtain ⟨query, bound, parsed, bind, constrain, serialize⟩ := guard_ok reachable guards
  refine ⟨query, bound, parsed, bind, ?_⟩
  intro setting a b registered first member second member' owner owner' new new'
  rw [Model.sublist_serialize serialize member member' (by simp [owner]) (by simp [owner'])]
  exact Model.constrain_precedes bind constrain registered ((Model.mem_serialize serialize).mp member).1
    ((Model.mem_serialize serialize).mp member').1 owner owner' new new'

/-- The policy about orders is registered before the criterion about customers. The root is a customer, and
orders are only joined, so the parameter of the criterion comes first. -/
theorem guard_precedes_shop :
    ∃ guarded query bound first second,
      (shop.guard "select c from Customer c join Order o on o.customer = c" .empty
        (((SecurityContext.ofPrincipal "ann").withAttribute "price" (.int32 5)).withAttribute
          "order" (.string "17")) shop.initialCache).1 = .ok guarded ∧
      guarded.parameters.entries.map (fun (name, binding) => (name, binding.owner)) =
        [("criterion_tenantId", .criterion "tenant"), ("criterion_placed_order", .criterion "placed"),
          ("criterion_cheap_price", .criterion "cheap")] ∧
      Query.parse "select c from Customer c join Order o on o.customer = c" shop.settings.depth =
        .ok query ∧
      Model.bind shop.schema query .empty = .ok bound ∧
      let setting := bound.setting shop.schema shop.registry shop.settings.scope
        (((SecurityContext.ofPrincipal "ann").withAttribute "price" (.int32 5)).withAttribute
          "order" (.string "17"))
      let cheap := RowPolicy.criterion
        ⟨"cheap", "Order", .or [.matching ⟨"total", "price", false⟩, .and []], none⟩
      let placed := Membership.criterion { name := "placed", target := "Customer", membership := "Order",
                                           reference := "customer", member := "id", contextAttr := "order" }
      first ∈ guarded.parameters.entries ∧ first.1 = "criterion_cheap_price" ∧
      second ∈ guarded.parameters.entries ∧ second.1 = "criterion_placed_order" ∧
      [cheap, placed].Sublist shop.registry.criteria ∧
      ¬ [first, second].Sublist guarded.parameters.entries ∧
      setting.reached.findIdx (setting.asks placed second.1) <
        setting.reached.findIdx (setting.asks cheap first.1) := by
  have runs : (shop.guard "select c from Customer c join Order o on o.customer = c" .empty
      (((SecurityContext.ofPrincipal "ann").withAttribute "price" (.int32 5)).withAttribute
        "order" (.string "17")) shop.initialCache).1.toOption.map
        (fun guarded => guarded.parameters.entries.map fun (name, binding) => (name, binding.owner)) =
      some [("criterion_tenantId", .criterion "tenant"), ("criterion_placed_order", .criterion "placed"),
        ("criterion_cheap_price", .criterion "cheap")] := by
    decide +kernel
  obtain ⟨guarded, guards, owners⟩ := Option.map_eq_some_iff.mp runs
  obtain ⟨query, bound, parsed, bind, precedes⟩ := guard_precedes .initial (ok_of_toOption guards)
  have listed : ∀ entry ∈ [("criterion_tenantId", Owner.criterion "tenant"),
      ("criterion_placed_order", .criterion "placed"), ("criterion_cheap_price", .criterion "cheap")],
      ∃ found ∈ guarded.parameters.entries, found.1 = entry.1 ∧ found.2.owner = entry.2 := by
    intro entry member
    rw [← owners] at member
    obtain ⟨found, among, rfl⟩ := List.mem_map.mp member
    exact ⟨found, among, rfl, rfl⟩
  obtain ⟨first, member, name, owner⟩ := listed ("criterion_cheap_price", .criterion "cheap") (by simp)
  obtain ⟨second, member', name', owner'⟩ := listed ("criterion_placed_order", .criterion "placed") (by simp)
  have registered := (((List.Sublist.refl (shop.registry.criteria.drop 2)).cons
    Criterion.softDelete).cons (Criterion.tenant))
  have order := precedes _ _ registered first member second member' owner owner' (List.not_mem_nil)
    List.not_mem_nil
  have behind : ¬ [first, second].Sublist guarded.parameters.entries := by
    intro before
    have names := before.map fun (name, binding) => (name, binding.owner)
    simp only [owners, List.map_cons, List.map_nil, name, name', owner, owner'] at names
    exact absurd names (by decide +kernel)
  exact ⟨guarded, query, bound, first, second, ok_of_toOption guards, owners, parsed, bind, member, name,
    member', name', registered, behind, Nat.lt_of_not_le fun within => behind (order.mpr within)⟩

end Engine

end QueryGuard
