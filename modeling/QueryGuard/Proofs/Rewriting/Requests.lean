import QueryGuard.Proofs.Criterion.Standard
import QueryGuard.Proofs.Rewriting.Claims
/-!
What applying criteria does, said by the ranges that are visited alone: which criteria contribute for
them, which aliases and parameters they get in their order, and that nothing else makes it fail.
-/

set_option autoImplicit false

namespace QueryGuard

namespace Constraint

/-! ### Visits and requests -/

/-- A criterion is applied to the range of an alias. -/
structure Visit where
  range : String
  criterion : Criterion

/-- What a criterion contributes for a range. -/
structure Request where
  range : String
  criterion : String
  contribution : Contribution

/-- The aliases that are used for what a criterion adds for a range. -/
abbrev Naming := (range criterion : String) → String

namespace Visit

variable (setting : Setting) (visit : Visit)

/-- What the criterion contributes for the range; nothing for ranges that criteria added. -/
def offer : Except QueryError (Option Contribution) :=
  match setting.model.range? visit.range with
  | none => return none
  | some range =>
      if range.injectedBy.isSome then return none
      else
        match setting.schema.entity? range.entity with
        | none => throw (.configuration (.missingEntity range.entity))
        | some entity =>
            if visit.criterion.appliesTo entity then
              visit.criterion.contribute (contextOf setting entity visit.range)
            else return none

/-- The entity that the criterion is asked about; none for ranges that criteria added, and for those
that the criterion does not apply to. -/
def subject : Except QueryError (Option Entity) :=
  match setting.model.range? visit.range with
  | none => return none
  | some range =>
      if range.injectedBy.isSome then return none
      else
        match setting.schema.entity? range.entity with
        | none => throw (.configuration (.missingEntity range.entity))
        | some entity => return if visit.criterion.appliesTo entity then some entity else none

theorem offer_eq :
    visit.offer setting = visit.subject setting >>= fun
      | some entity => visit.criterion.contribute (contextOf setting entity visit.range)
      | none => return none := by
  unfold offer subject
  cases setting.model.range? visit.range with
  | none => rfl
  | some range =>
    dsimp only
    cases range.injectedBy with
    | some owner => rfl
    | none =>
      cases setting.schema.entity? range.entity with
      | none => rfl
      | some entity =>
        dsimp only
        cases visit.criterion.appliesTo entity <;> rfl

/-- The criterion does not fail. -/
def Answered : Prop := ∃ offer, visit.offer setting = .ok offer

def request? : Option Request :=
  match visit.offer setting with
  | .ok (some contribution) => some ⟨visit.range, visit.criterion.name, contribution⟩
  | _ => none

end Visit

namespace Request

def label? (request : Request) : Option String := request.contribution.label?

def claims (request : Request) : List Claim :=
  request.contribution.parameters.map fun (name, value) => ⟨request.criterion, name, value⟩

/-- The condition with the alias that is used in it. -/
def worded (request : Request) (naming : Naming) : Predicate :=
  request.contribution.worded (naming request.range request.criterion)

end Request

/-- The alias that is used where one is wanted. -/
def pick (taken : List String) (label : String) : String :=
  if label ∈ taken then FreshAlias.choose (taken ++ [label]) label else label

/-- The requests that want an alias, with the ones that they get. -/
def drawn : (taken : List String) → List Request → List (Request × String)
  | _, [] => []
  | taken, request :: rest =>
      match request.label? with
      | none => drawn taken rest
      | some label => (request, pick taken label) :: drawn (pick taken label :: taken) rest

/-- The aliases are those that the requests got. -/
def Naming.Suits (naming : Naming) (draws : List (Request × String)) : Prop :=
  ∀ draw ∈ draws, naming draw.1.range draw.1.criterion = draw.2

/-- What is known after the requests. -/
def Progress.after (before : Progress) (requests : List Request) : Progress :=
  let draws := drawn before.taken requests
  ⟨(draws.map (·.2)).reverse ++ before.taken,
    (draws.map fun (request, used) => (used, request.criterion)).reverse ++ before.injected,
    before.parameters.grantAll (requests.flatMap Request.claims)⟩

/-! ### Aliases -/

theorem pick_not_mem (taken : List String) (label : String) : pick taken label ∉ taken := by
  unfold pick
  split
  · have fresh := FreshAlias.choose_not_mem (taken ++ [label]) label
    exact fun member => fresh (List.mem_append_left _ member)
  · assumption

theorem chooseAliases_single (taken : List String) (label : String) :
    chooseAliases taken [label] [label] = [(label, pick taken label)] := by
  rw [chooseAliases, pick]
  split <;> rfl

theorem drawn_append (taken : List String) (first rest : List Request) :
    drawn taken (first ++ rest) =
      drawn taken first ++ drawn (((drawn taken first).map (·.2)).reverse ++ taken) rest := by
  induction first generalizing taken with
  | nil => rfl
  | cons request others ih =>
    rw [List.cons_append, drawn, drawn]
    split
    · exact ih taken
    · rw [ih, List.cons_append, List.map_cons, List.reverse_cons, List.append_assoc]
      rfl

/-- The aliases are different, and new. -/
theorem nodup_drawn (taken : List String) (requests : List Request) :
    ((drawn taken requests).map (·.2)).Nodup ∧
      ∀ used ∈ (drawn taken requests).map (·.2), used ∉ taken := by
  induction requests generalizing taken with
  | nil => exact ⟨List.nodup_nil, fun _ none => nomatch none⟩
  | cons request rest ih =>
    rw [drawn]
    split
    · exact ih taken
    · rename_i label _
      obtain ⟨nodup, new⟩ := ih (pick taken label :: taken)
      refine ⟨List.nodup_cons.mpr ⟨fun again => new _ again List.mem_cons_self, nodup⟩, ?_⟩
      refine List.forall_mem_cons.mpr ⟨pick_not_mem taken label, fun used member old => ?_⟩
      exact new used member (List.mem_cons_of_mem _ old)

theorem drawn_requests (taken : List String) (requests : List Request) :
    (drawn taken requests).map (·.1) = requests.filter (·.label?.isSome) := by
  induction requests generalizing taken with
  | nil => rfl
  | cons request rest ih =>
    rw [drawn]
    split
    · rename_i unlabelled
      rw [List.filter_cons_of_neg (by simp [unlabelled]), ih]
    · rename_i label labelled
      rw [List.filter_cons_of_pos (by simp [labelled]), List.map_cons, ih]

namespace Naming.Suits

variable {naming : Naming} {first rest : List (Request × String)}

theorem append : naming.Suits (first ++ rest) ↔ naming.Suits first ∧ naming.Suits rest :=
  List.forall_mem_append

end Naming.Suits

/-- The aliases that requests get are a naming, if no criterion has two requests for a range. -/
theorem exists_suits {draws : List (Request × String)}
    (distinct : (draws.map fun draw => (draw.1.range, draw.1.criterion)).Nodup) :
    ∃ naming : Naming, naming.Suits draws := by
  induction draws with
  | nil => exact ⟨fun _ _ => "", fun _ none => nomatch none⟩
  | cons draw rest ih =>
    obtain ⟨first, others⟩ := List.nodup_cons.mp distinct
    obtain ⟨naming, suits⟩ := ih others
    refine ⟨fun range criterion => if (range, criterion) = (draw.1.range, draw.1.criterion)
      then draw.2 else naming range criterion, List.forall_mem_cons.mpr ⟨if_pos rfl, ?_⟩⟩
    intro other member
    have differs : (other.1.range, other.1.criterion) ≠ (draw.1.range, draw.1.criterion) :=
      fun same => first (List.mem_map.mpr ⟨other, member, same⟩)
    exact (if_neg differs).trans (suits other member)

namespace Progress

theorem after_nil (before : Progress) : before.after [] = before := rfl

theorem after_append (before : Progress) (first rest : List Request) :
    before.after (first ++ rest) = (before.after first).after rest := by
  simp only [after, drawn_append, List.map_append, List.reverse_append, List.append_assoc,
    List.flatMap_append, ParameterMap.grantAll, List.foldl_append]

end Progress

/-! ### Steps that carry requests -/

section

variable (setting : Setting)

/-- The names of the markers in the query. -/
def Setting.markers : List String := setting.model.query.markers.map (·.value)

/-- Criteria added the range of the alias to the model. -/
def Setting.isClosed (name : String) : Bool :=
  setting.model.progress.injected.any (·.1 == name)

/-- The aliases of the model are in use, and it is known which of them criteria added. -/
structure Progress.Orderly (progress : Progress) : Prop where
  taken : setting.model.aliases ⊆ progress.taken
  known : ∀ name ∈ setting.model.aliases,
    progress.injected.any (·.1 == name) = setting.isClosed name

/-- What the visits are answered with. -/
def requestsOf (visits : List Visit) : List Request := visits.filterMap (Visit.request? setting)

/-- All criteria that are applied answer, and get the parameters that they ask for. -/
def Granted (parameters : ParameterMap) (visits : List Visit) : Prop :=
  (∀ visit ∈ visits, visit.Answered setting) ∧
    parameters.Accepts setting.markers ((requestsOf setting visits).flatMap Request.claims)

/-- The step makes the visits, one after the other: it succeeds if and only if they are granted, leaves
what is known after them, and has the result for the aliases that they get. -/
structure Carries {α : Type} (step : Constrain α) (visits : List Visit) (result : Naming → α) :
    Prop where
  reaches : ∀ before value after, before.Orderly setting → step.run before = .ok (value, after) →
    Granted setting before.parameters visits ∧ after = before.after (requestsOf setting visits) ∧
      ∀ naming : Naming, naming.Suits (drawn before.taken (requestsOf setting visits)) →
        value = result naming
  succeeds : ∀ before, before.Orderly setting → Granted setting before.parameters visits →
    ∃ reached, step.run before = .ok reached

end

variable {setting : Setting}

theorem Progress.Orderly.after {before : Progress} (orderly : before.Orderly setting)
    (requests : List Request) : (before.after requests).Orderly setting := by
  refine ⟨fun name member => List.mem_append_right _ (orderly.taken member), fun name member => ?_⟩
  rw [← orderly.known name member, Progress.after]
  have others : ((drawn before.taken requests).map fun (request, used) =>
      (used, request.criterion)).reverse.any (·.1 == name) = false := by
    rw [List.any_reverse, List.any_map, List.any_eq_false]
    intro draw among same
    have new := (nodup_drawn before.taken requests).2 draw.2 (List.mem_map_of_mem among)
    have named : draw.2 = name := by simpa using same
    exact new (named ▸ orderly.taken member)
  rw [List.any_append, others, Bool.false_or]

theorem requestsOf_append (first rest : List Visit) :
    requestsOf setting (first ++ rest) = requestsOf setting first ++ requestsOf setting rest :=
  List.filterMap_append

/-- Visits that nothing is contributed for ask for nothing. -/
theorem requestsOf_eq_nil {visits : List Visit}
    (nothing : ∀ visit ∈ visits, visit.offer setting = .ok none) : requestsOf setting visits = [] := by
  rw [requestsOf, List.filterMap_eq_nil_iff]
  intro visit member
  rw [Visit.request?, nothing visit member]

theorem Granted.of_silent {visits : List Visit}
    (nothing : ∀ visit ∈ visits, visit.offer setting = .ok none) (parameters : ParameterMap) :
    Granted setting parameters visits := by
  rw [Granted, requestsOf_eq_nil nothing]
  exact ⟨fun visit member => ⟨none, nothing visit member⟩, trivial⟩

theorem granted_append {parameters : ParameterMap} {first rest : List Visit} :
    Granted setting parameters (first ++ rest) ↔ Granted setting parameters first ∧
      Granted setting
        (parameters.grantAll ((requestsOf setting first).flatMap Request.claims)) rest := by
  rw [Granted, Granted, Granted, List.forall_mem_append, requestsOf_append, List.flatMap_append,
    ParameterMap.accepts_append]
  tauto

namespace Carries

variable {α β : Type}

theorem pure (value : α) : Carries setting (pure value) [] fun _ => value where
  reaches := by
    intro before found after _ run
    obtain ⟨rfl, rfl⟩ := Prod.mk.inj (Except.ok.inj run)
    exact ⟨⟨fun _ none => (nomatch none), trivial⟩, rfl, fun _ _ => rfl⟩
  succeeds := fun before _ _ => ⟨(value, before), rfl⟩

theorem bind {step : Constrain α} {next : α → Constrain β} {first rest : List Visit}
    {result : Naming → α} {result' : α → Naming → β} (start : Carries setting step first result)
    (others : ∀ value, Carries setting (next value) rest (result' value)) :
    Carries setting (step >>= next) (first ++ rest)
      fun naming => result' (result naming) naming where
  reaches := by
    intro before value after orderly run
    rw [StateT.run_bind] at run
    obtain ⟨⟨found, between⟩, run, further⟩ := ok_of_bind run
    obtain ⟨granted, rfl, named⟩ := start.reaches before found between orderly run
    obtain ⟨granted', rfl, named'⟩ :=
      (others found).reaches _ value after (orderly.after _) further
    refine ⟨granted_append.mpr ⟨granted, granted'⟩, ?_, fun naming suits => ?_⟩
    · rw [requestsOf_append, Progress.after_append]
    · rw [requestsOf_append, drawn_append, Naming.Suits.append] at suits
      rw [← named naming suits.1]
      exact named' naming suits.2
  succeeds := by
    intro before orderly granted
    obtain ⟨here, there⟩ := granted_append.mp granted
    obtain ⟨⟨found, between⟩, run⟩ := start.succeeds before orderly here
    obtain ⟨_, rfl, _⟩ := start.reaches before found between orderly run
    obtain ⟨reached, further⟩ := (others found).succeeds _ (orderly.after _) there
    exact ⟨reached, by rw [StateT.run_bind, run]; exact further⟩

theorem congr {step : Constrain α} {visits others : List Visit} {result result' : Naming → α}
    (carries : Carries setting step visits result) (same : visits = others)
    (named : ∀ naming, result naming = result' naming) : Carries setting step others result' := by
  obtain rfl : result = result' := funext named
  exact same ▸ carries

/-- A step that succeeds is followed by a computation on its result. -/
theorem map {step : Constrain α} {visits : List Visit} {result : Naming → α}
    (carries : Carries setting step visits result) (f : α → β) :
    Carries setting (f <$> step) visits fun naming => f (result naming) := by
  rw [map_eq_pure_bind]
  exact (carries.bind fun value => .pure (f value)).congr (List.append_nil _) fun _ => rfl

/-- Visits that nothing is contributed for need not be made. -/
theorem idle {visits : List Visit} (nothing : ∀ visit ∈ visits, visit.offer setting = .ok none)
    (value : α) : Carries setting (Pure.pure value) visits fun _ => value := by
  refine ⟨fun before found after _ run => ?_, fun before _ _ => ⟨(value, before), rfl⟩⟩
  obtain ⟨rfl, rfl⟩ := Prod.mk.inj (Except.ok.inj run)
  refine ⟨.of_silent nothing _, ?_⟩
  rw [requestsOf_eq_nil nothing]
  exact ⟨rfl, fun _ _ => rfl⟩

theorem fails {visits : List Visit} {visit : Visit} (member : visit ∈ visits)
    (unanswered : ¬ visit.Answered setting) (error : QueryError) (result : Naming → α) :
    Carries setting (throw error) visits result :=
  ⟨fun _ _ _ _ run => (nomatch run), fun _ _ granted => absurd (granted.1 visit member) unanswered⟩

theorem mapM {step : α → Constrain β} {visits : α → List Visit} {result : α → Naming → β}
    {items : List α} (each : ∀ x ∈ items, Carries setting (step x) (visits x) (result x)) :
    Carries setting (items.mapM step) (items.flatMap visits)
      fun naming => items.map (result · naming) := by
  induction items with
  | nil =>
    rw [List.mapM_nil]
    exact .pure []
  | cons first rest ih =>
    obtain ⟨here, others⟩ := List.forall_mem_cons.mp each
    have further : ∀ value, Carries setting (rest.mapM step >>= fun values =>
        Pure.pure (value :: values)) (rest.flatMap visits)
        fun naming => value :: rest.map (result · naming) := by
      intro value
      rw [bind_pure_comp]
      exact (ih others).map (value :: ·)
    rw [List.mapM_cons]
    exact here.bind further

theorem optionMapM {step : α → Constrain β} {visits : α → List Visit} {result : α → Naming → β}
    {item : Option α} (each : ∀ x ∈ item, Carries setting (step x) (visits x) (result x)) :
    Carries setting (item.mapM step) (item.toList.flatMap visits)
      fun naming => item.map (result · naming) := by
  cases item with
  | none => exact .pure none
  | some x => exact ((each x rfl).map some).congr (List.flatMap_singleton visits x).symm fun _ => rfl

end Carries

end Constraint

end QueryGuard
