import QueryGuard.Proofs.Binding.Performing
import QueryGuard.Proofs.Criterion.Agreeing
import QueryGuard.Proofs.Engine.Guarded
import QueryGuard.Proofs.Rewriting.Outcome
/-!
What is known of a caller shows in the values of parameters, not in the text of a guarded query.
-/

set_option autoImplicit false

namespace QueryGuard

/-! ### Parameters -/

/-- The bindings differ in a value that a criterion supplied, and in the type if it is the value's
own. -/
structure Binding.Alike (first second : Binding) : Prop where
  owner : second.owner = first.owner
  caller : first.owner = .caller → second = first
  type : second.declaredType = first.declaredType ∨
    first.declaredType = first.value.scalarType? ∧ second.declaredType = second.value.scalarType?

/-- The parameters have the same names in the same order, and bindings that are alike. -/
def ParameterMap.Alike (first second : ParameterMap) : Prop :=
  List.Forall₂ (fun entry other => other.1 = entry.1 ∧ entry.2.Alike other.2)
    first.entries second.entries

theorem Binding.Alike.refl (binding : Binding) : binding.Alike binding :=
  ⟨rfl, fun _ => rfl, .inl rfl⟩

/-- Both bindings get the type, if there is one. -/
theorem Binding.Alike.noteType {first second : Binding} (alike : first.Alike second)
    (type : Option ScalarType) :
    Binding.Alike { first with declaredType := type.or first.declaredType }
      { second with declaredType := type.or second.declaredType } := by
  refine ⟨alike.owner, fun caller => by rw [alike.caller caller], ?_⟩
  cases type with
  | none => exact alike.type
  | some type => exact .inl rfl

/-- A claim without its value. -/
def Claim.shape (claim : Claim) : String × String := (claim.criterion, claim.name)

theorem Claim.alike_binding {first second : Claim} (same : second.shape = first.shape) :
    first.binding.Alike second.binding := by
  obtain ⟨criterion, _⟩ := Prod.mk.inj same
  exact ⟨congrArg Owner.criterion criterion, nofun, .inr ⟨rfl, rfl⟩⟩

namespace ParameterMap.Alike

variable {first second : ParameterMap}

theorem refl (parameters : ParameterMap) : parameters.Alike parameters :=
  List.forall₂_same.mpr fun entry _ => ⟨rfl, .refl entry.2⟩

theorem names (alike : first.Alike second) : second.names = first.names := by
  have same : List.Forall₂ (· = ·) (second.entries.map (·.1)) (first.entries.map (·.1)) := by
    rw [List.forall₂_map_left_iff, List.forall₂_map_right_iff]
    exact alike.flip.imp fun _ _ here => here.1
  rwa [List.forall₂_eq_eq_eq] at same

theorem grant (alike : first.Alike second) {claim claim' : Claim}
    (same : claim'.shape = claim.shape) : (first.grant claim).Alike (second.grant claim') := by
  have name : claim'.name = claim.name := congrArg Prod.snd same
  by_cases there : claim.name ∈ first.names
  · rw [ParameterMap.grant, ParameterMap.grant, if_pos there, name, if_pos (alike.names ▸ there)]
    exact alike
  · have new : claim.name ∉ second.names := alike.names ▸ there
    rw [ParameterMap.grant, ParameterMap.grant, if_neg there, name, if_neg new, Alike,
      entries_insert there, entries_insert new]
    exact List.rel_append alike (.cons ⟨rfl, Claim.alike_binding same⟩ .nil)

theorem grantAll (alike : first.Alike second) {claims others : List Claim}
    (same : others.map Claim.shape = claims.map Claim.shape) :
    (first.grantAll claims).Alike (second.grantAll others) := by
  induction claims generalizing first second others with
  | nil =>
    rw [List.map_eq_nil_iff.mp same]
    exact alike
  | cons claim rest ih =>
    obtain ⟨other, further, rfl, here, same⟩ := List.map_eq_cons_iff.mp same
    exact ih (alike.grant here) same

/-- Types are noted for both. -/
theorem setTypes (alike : first.Alike second) (types : List (String × ScalarType)) :
    (types.foldl (fun parameters (name, type) => parameters.setType name type) first).Alike
      (types.foldl (fun parameters (name, type) => parameters.setType name type) second) := by
  rw [Alike, entries_setTypes, entries_setTypes, List.forall₂_map_left_iff,
    List.forall₂_map_right_iff]
  refine alike.imp ?_
  rintro ⟨_, binding⟩ ⟨name, binding'⟩ ⟨rfl, alike⟩
  exact ⟨rfl, alike.noteType _⟩

theorem filterEntries (alike : first.Alike second) {keep : String × Binding → Bool}
    (same : ∀ entry other : String × Binding, other.1 = entry.1 ∧ entry.2.Alike other.2 →
      keep other = keep entry) :
    List.Forall₂ (fun entry other => other.1 = entry.1 ∧ entry.2.Alike other.2)
      (first.entries.filter keep) (second.entries.filter keep) :=
  List.rel_filter
    (fun entry other found => Bool.eq_iff_iff.mp (same entry other found).symm) alike

theorem filter (alike : first.Alike second) (keep : String → Bool) :
    (first.filter fun name _ => keep name).Alike (second.filter fun name _ => keep name) :=
  alike.filterEntries fun _ _ found => congrArg keep found.1

theorem callerFirst (alike : first.Alike second) : first.callerFirst.Alike second.callerFirst := by
  refine List.rel_append (alike.filterEntries fun entry other found => ?_)
    (alike.filterEntries fun entry other found => ?_)
  · simp only [found.2.owner]
  · simp only [found.2.owner]

end ParameterMap.Alike

/-! ### Requests -/

namespace Constraint

/-- The setting with another caller. -/
def Setting.asked (setting : Setting) (security : SecurityContext) : Setting :=
  { setting with security }

/-- A request without the values of its parameters. -/
def Request.shape (request : Request) : String × String × Predicate × List String :=
  (request.range, request.criterion, request.contribution.shape)

namespace Request

variable {first second : Request}

theorem label?_congr (same : second.shape = first.shape) : second.label? = first.label? :=
  congrArg (fun shape : String × String × Predicate × List String =>
    Contribution.label? ⟨shape.2.2.1, []⟩) same

theorem map_worded_congr {requests others : List Request}
    (same : others.map shape = requests.map shape) (naming : Naming) :
    others.map (·.worded naming) = requests.map (·.worded naming) := by
  have shapes : ∀ requests : List Request, requests.map (·.worded naming) =
      (requests.map shape).map fun (range, criterion, predicate, _) =>
        Contribution.worded ⟨predicate, []⟩ (naming range criterion) := by
    intro requests
    rw [List.map_map]
    rfl
  rw [shapes, shapes, same]

theorem shape_claims (request : Request) :
    request.claims.map Claim.shape = request.shape.2.2.2.map (request.shape.2.1, ·) := by
  rw [claims, List.map_map, shape, Contribution.shape, List.map_map]
  rfl

end Request

variable {setting : Setting} {other : SecurityContext} {criteria : List Criterion}

/-- A criterion that answers both callers asks for the same. -/
theorem Visit.request?_agree {visit : Visit} (standard : visit.criterion.Standard)
    (member : visit.criterion ∈ criteria) (agree : setting.security.Agree criteria other)
    (answered : visit.Answered setting) (answered' : visit.Answered (setting.asked other)) :
    (visit.request? (setting.asked other)).map Request.shape =
      (visit.request? setting).map Request.shape := by
  obtain ⟨offer, answers⟩ := answered
  obtain ⟨offer', answers'⟩ := answered'
  have same : offer'.map Contribution.shape = offer.map Contribution.shape := by
    rw [Visit.offer_eq] at answers answers'
    obtain ⟨subject, found, answers⟩ := ok_of_bind answers
    obtain ⟨subject', found', answers'⟩ := ok_of_bind answers'
    obtain rfl : subject = subject' := Except.ok.inj (found.symm.trans found')
    cases subject with
    | none => rw [← Except.ok.inj answers, ← Except.ok.inj answers']
    | some entity => exact standard.contribute_agree member agree answers answers'
  have asked : ∀ {setting : Setting} {offer : Option Contribution},
      visit.offer setting = .ok offer → (visit.request? setting).map Request.shape =
        (offer.map Contribution.shape).map (visit.range, visit.criterion.name, ·) := by
    intro setting offer answers
    rw [Visit.request?, answers]
    cases offer <;> rfl
  rw [asked answers, asked answers', same]

variable {visits : List Visit}

/-- If criteria answer both callers, the requests differ in values only. -/
theorem requestsOf_agree
    (standard : ∀ visit ∈ visits, visit.criterion.Standard ∧ visit.criterion ∈ criteria)
    (agree : setting.security.Agree criteria other) (answered : ∀ visit ∈ visits,
      visit.Answered setting ∧ visit.Answered (setting.asked other)) :
    (requestsOf (setting.asked other) visits).map Request.shape =
      (requestsOf setting visits).map Request.shape := by
  rw [requestsOf, requestsOf, List.map_filterMap, List.map_filterMap]
  exact List.filterMap_congr fun visit member => Visit.request?_agree (standard visit member).1
    (standard visit member).2 agree (answered visit member).1 (answered visit member).2

/-- Requests that differ in values only get the same aliases. -/
theorem drawn_agree {requests others : List Request}
    (same : others.map Request.shape = requests.map Request.shape) (taken : List String) :
    (drawn taken others).map (fun draw => (draw.1.shape, draw.2)) =
      (drawn taken requests).map fun draw => (draw.1.shape, draw.2) := by
  induction requests generalizing others taken with
  | nil => rw [List.map_eq_nil_iff.mp same]
  | cons request rest ih =>
    obtain ⟨other, further, rfl, here, same⟩ := List.map_eq_cons_iff.mp same
    rw [drawn, drawn, Request.label?_congr here]
    cases request.label? with
    | none => exact ih same taken
    | some label =>
      rw [List.map_cons, List.map_cons, ih same, here]

theorem Naming.Suits.agree {naming : Naming} {requests others : List Request} {taken : List String}
    (suits : naming.Suits (drawn taken requests))
    (same : others.map Request.shape = requests.map Request.shape) :
    naming.Suits (drawn taken others) := by
  have shapes : ∀ draws : List (Request × String), naming.Suits draws ↔
      ∀ draw ∈ draws.map fun draw => (draw.1.shape, draw.2),
        naming draw.1.1 draw.1.2.1 = draw.2 :=
    fun draws => by rw [List.forall_mem_map]; rfl
  rw [shapes, drawn_agree same, ← shapes]
  exact suits

/-- What is known after requests that differ in values only. -/
theorem Progress.after_agree (before : Progress) {requests others : List Request}
    (same : others.map Request.shape = requests.map Request.shape) :
    (before.after others).injected = (before.after requests).injected ∧
      (before.after requests).parameters.Alike (before.after others).parameters := by
  constructor
  · have owners : ∀ requests : List Request, (before.after requests).injected =
        (((drawn before.taken requests).map fun draw => (draw.1.shape, draw.2)).map
          fun draw => (draw.2, draw.1.2.1)).reverse ++ before.injected := by
      intro requests
      rw [List.map_map]
      rfl
    rw [owners, owners, drawn_agree same]
  · have claims : ∀ requests : List Request, (requests.flatMap Request.claims).map Claim.shape =
        (requests.map Request.shape).flatMap fun shape => shape.2.2.2.map (shape.2.1, ·) := by
      intro requests
      rw [List.map_flatMap, List.flatMap_map, funext Request.shape_claims]
    exact (ParameterMap.Alike.refl _).grantAll (by rw [claims, claims, same])

end Constraint

/-! ### Models -/

/-- The models differ in values of parameters only. -/
structure Model.Alike (first second : Model) : Prop where
  query : second.query = first.query
  ranges : second.ranges = first.ranges
  navigations : second.navigations = first.navigations
  parameters : first.parameters.Alike second.parameters
  applied : second.applied = first.applied

namespace Model

open Constraint

variable {schema catalog : Schema} {model first second : Model} {registry : Registry} {scope : Scope}
  {security other : SecurityContext}

/-- Looking up a tree does not depend on values. -/
theorem ofTree_alike {query : Query} {parameters parameters' : ParameterMap} {applied : List String}
    {injected : List (String × String)} (alike : parameters.Alike parameters')
    (result : ofTree schema query parameters applied injected = .ok first)
    (result' : ofTree schema query parameters' applied injected = .ok second) :
    first.Alike second := by
  obtain ⟨⟨⟨⟩, found⟩, run, returned⟩ := ok_of_bind result
  obtain ⟨⟨⟨⟩, found'⟩, run', returned'⟩ := ok_of_bind result'
  obtain ⟨_, rfl⟩ := Prod.mk.inj (Except.ok.inj (run.symm.trans run'))
  rw [← Except.ok.inj returned, ← Except.ok.inj returned']
  exact ⟨rfl, rfl, rfl, alike.setTypes found.types, rfl⟩

/-- If the criteria can be applied for two callers who differ in values only, the results do. -/
theorem Reachable.constrain_agree (reachable : Reachable schema model)
    (standard : ∀ criterion ∈ registry.criteria, criterion.Standard)
    (agree : security.Agree registry.criteria other)
    (constrain : model.constrain catalog registry scope security = .ok first)
    (constrain' : model.constrain catalog registry scope other = .ok second) :
    first.Alike second := by
  by_cases none : model.pending registry = []
  · rw [constrain_nothing none] at constrain constrain'
    obtain rfl := Except.ok.inj constrain
    obtain rfl := Except.ok.inj constrain'
    exact ⟨rfl, rfl, rfl, .refl _, rfl⟩
  · obtain ⟨naming, fits⟩ := reachable.exists_fits catalog registry scope security
    obtain ⟨naming', fits'⟩ := reachable.exists_fits catalog registry scope other
    obtain ⟨granted, looked⟩ := (reachable.constrain_ok_iff standard none fits).mp constrain
    have granted' := ((reachable.constrain_ok_iff standard none fits').mp constrain').1
    let setting := model.setting catalog registry scope security
    have among : ∀ {name} {visit}, visit ∈ setting.visitsTo name →
        visit.criterion.Standard ∧ visit.criterion ∈ registry.criteria := by
      intro name visit member
      obtain ⟨criterion, pending, rfl⟩ := List.mem_map.mp member
      have registered := (List.mem_filter.mp pending).1
      exact ⟨standard criterion registered, registered⟩
    have answered : ∀ visit ∈ setting.visits,
        visit.Answered setting ∧ visit.Answered (setting.asked other) :=
      fun visit member => ⟨granted.1 visit member, granted'.1 visit member⟩
    have requests : ((setting.asked other).requests).map Request.shape =
        setting.requests.map Request.shape := by
      refine requestsOf_agree (List.forall_mem_flatMap.mpr fun name _ visit => among) agree answered
    have suits : (model.setting catalog registry scope other).Fits naming := fits.agree requests
    have looked' := ((reachable.constrain_ok_iff standard none suits).mp constrain').2
    have placed : (setting.asked other).placed naming = setting.placed naming := by
      funext name
      refine ite_congr rfl (fun reached => ?_) fun _ => rfl
      refine Request.map_worded_congr (requestsOf_agree (fun _ => among) agree ?_) naming
      exact fun visit member => answered visit (List.mem_flatMap.mpr ⟨name, reached, member⟩)
    obtain ⟨injected, parameters⟩ := model.progress.after_agree requests
    change Model.ofTree catalog (model.query.extended ((setting.asked other).placed naming)) _ _
      (model.progress.after (setting.asked other).requests).injected = _ at looked'
    rw [placed, injected] at looked'
    exact ofTree_alike parameters looked looked'

theorem Alike.serialize {serialized serialized' : Serialized} (alike : first.Alike second)
    (result : first.serialize = .ok serialized) (result' : second.serialize = .ok serialized') :
    serialized'.text = serialized.text ∧ serialized.parameters.Alike serialized'.parameters := by
  refine ⟨by rw [text_serialize result, text_serialize result', alike.query], ?_⟩
  unfold Model.serialize at result result'
  dsimp only at result result'
  split at result
  · cases result
  · split at result'
    · cases result'
    · rw [← Except.ok.inj result, ← Except.ok.inj result', alike.query]
      exact alike.parameters.callerFirst.filter _

end Model

namespace Engine

variable {engine : Engine}

/-- Two callers who differ in values only get the same text, and parameters of the same names, owners and
order, if the engine guards the query for both of them. Only the values that criteria supply may differ,
and types that are those of the values. -/
theorem guard_agree {cache cache' : Option ParseCache} (reachable : engine.Reachable cache)
    (reachable' : engine.Reachable cache')
    (standard : ∀ criterion ∈ engine.registry.criteria, criterion.Standard)
    {source : String} {parameters : ParameterMap} {first second : SecurityContext}
    (agree : first.Agree engine.registry.criteria second) {guarded guarded' : Guarded}
    (guards : (engine.guard source parameters first cache).1 = .ok guarded)
    (guards' : (engine.guard source parameters second cache').1 = .ok guarded') :
    guarded'.text = guarded.text ∧ guarded.parameters.Alike guarded'.parameters ∧
      guarded.model.Alike guarded'.model := by
  have answers := engine.parse_reachable reachable source
  have answers' := engine.parse_reachable reachable' source
  unfold guard at guards guards'
  simp only [answers] at guards
  simp only [answers'] at guards'
  cases parsed : engine.parseDirectly source with
  | error error =>
    rw [parsed] at guards
    cases guards
  | ok query =>
    rw [parsed] at guards guards'
    obtain ⟨bound, bind, guards⟩ := ok_of_bind guards
    obtain ⟨model, constrain, guards⟩ := ok_of_bind guards
    obtain ⟨serialized, serialize, returned⟩ := ok_of_bind guards
    obtain ⟨bound', bind', guards'⟩ := ok_of_bind guards'
    obtain ⟨model', constrain', guards'⟩ := ok_of_bind guards'
    obtain ⟨serialized', serialize', returned'⟩ := ok_of_bind guards'
    obtain rfl := Except.ok.inj (bind.symm.trans bind')
    have alike := (Model.Reachable.bound bind).constrain_agree standard agree constrain constrain'
    obtain ⟨text, written⟩ := alike.serialize serialize serialize'
    rw [← Except.ok.inj returned, ← Except.ok.inj returned']
    exact ⟨text, written, alike⟩

theorem standard_shop : ∀ criterion ∈ shop.registry.criteria, criterion.Standard := by
  refine List.forall_mem_cons.mpr ⟨.tenant _, List.forall_mem_cons.mpr ⟨.softDelete, ?_⟩⟩
  refine List.forall_mem_cons.mpr ⟨.policy _, List.forall_mem_cons.mpr ⟨.membership _, ?_⟩⟩
  exact List.forall_mem_nil _

/-- Ann and Bob get the same text; prices and orders of theirs, and the tenant, are parameters. -/
theorem guard_agree_shop :
    ∃ guarded guarded',
      (shop.guard "select c from Customer c left join Order o on o.customer = c" .empty
        (((SecurityContext.ofPrincipal "ann").withAttribute "price" (.int32 5)).withAttribute
          "order" (.string "17")) shop.initialCache).1 = .ok guarded ∧
      (shop.guard "select c from Customer c left join Order o on o.customer = c" .empty
        ((((SecurityContext.ofPrincipal "bob").withTenant "north").withAttribute "price"
          (.string "low")).withAttribute "order" .null) shop.initialCache).1 = .ok guarded' ∧
      guarded.text = "select c from Customer c left join Order o on (o.customer = c) and (o.deleted is null) and (o.total = :criterion_cheap_price or 1 = 1) where (:criterion_tenantId = 'NO_TENANT' or c.tenant = :criterion_tenantId) and (exists (select m from Order m where m.customer = c and m.id = :criterion_placed_order))" ∧
      guarded'.text = guarded.text ∧ guarded.parameters.Alike guarded'.parameters ∧
      guarded.model.Alike guarded'.model := by
  have runs : ((shop.guard "select c from Customer c left join Order o on o.customer = c" .empty
      (((SecurityContext.ofPrincipal "ann").withAttribute "price" (.int32 5)).withAttribute
        "order" (.string "17")) shop.initialCache).1.toOption.map (·.text)) =
      some "select c from Customer c left join Order o on (o.customer = c) and (o.deleted is null) and (o.total = :criterion_cheap_price or 1 = 1) where (:criterion_tenantId = 'NO_TENANT' or c.tenant = :criterion_tenantId) and (exists (select m from Order m where m.customer = c and m.id = :criterion_placed_order))" := by
    decide +kernel
  have runs' : (shop.guard "select c from Customer c left join Order o on o.customer = c" .empty
      ((((SecurityContext.ofPrincipal "bob").withTenant "north").withAttribute "price"
        (.string "low")).withAttribute "order" .null) shop.initialCache).1.toOption.isSome := by
    decide +kernel
  obtain ⟨guarded, guards, text⟩ := Option.map_eq_some_iff.mp runs
  obtain ⟨guarded', guards'⟩ := Option.isSome_iff_exists.mp runs'
  have agree : SecurityContext.Agree shop.registry.criteria
      (((SecurityContext.ofPrincipal "ann").withAttribute "price" (.int32 5)).withAttribute
        "order" (.string "17"))
      ((((SecurityContext.ofPrincipal "bob").withTenant "north").withAttribute "price"
        (.string "low")).withAttribute "order" .null) := by
    refine ⟨rfl, fun name => ?_, fun _ _ name _ => ⟨fun is => ?_, fun is => ?_⟩⟩
    · change (List.lookup name [_, _]).isSome = (List.lookup name [_, _]).isSome
      simp only [List.lookup_cons, List.lookup_nil]
      cases name == "order" with
      | true => rfl
      | false => cases name == "price" <;> rfl
    · have listed := mem_of_lookup is
      simp [SecurityContext.withAttribute, SecurityContext.withTenant,
        SecurityContext.ofPrincipal] at listed
    · have listed := mem_of_lookup is
      simp [SecurityContext.withAttribute, SecurityContext.ofPrincipal] at listed
  exact ⟨guarded, guarded', ok_of_toOption guards, ok_of_toOption guards', text,
    guard_agree .initial .initial standard_shop agree (ok_of_toOption guards)
      (ok_of_toOption guards')⟩

end Engine

end QueryGuard
