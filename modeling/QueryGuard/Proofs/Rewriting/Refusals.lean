import QueryGuard.Proofs.Rewriting.Conflicts
/-!
Why criteria cannot be applied. The visits before one are granted, and this one is refused: the criterion does
not answer, or it asks for a parameter that it may not have, because of whom the parameter belongs to.
-/

set_option autoImplicit false

namespace QueryGuard

/-- The criterion may not have the parameter: somebody else has it, the criterion itself has it with another
value, or the text has a marker of its name, for which the caller has the value. -/
inductive Claim.Contested (markers : List String) (parameters : ParameterMap) (claim : Claim) :
    Owner → Prop where
  | held {kept : Value} {owner : Owner} (member : (claim.name, kept, owner) ∈ parameters.untyped)
      (differs : owner = .criterion claim.criterion → kept.same claim.value = false) :
      Contested markers parameters claim owner
  | marked (among : claim.name ∈ markers) : Contested markers parameters claim .caller

namespace ParameterMap

/-- The claims before one are granted, and this one is contested. -/
inductive Denies (markers : List String) :
    ParameterMap → List Claim → QueryError → Prop where
  | here {parameters : ParameterMap} {claim : Claim} {rest : List Claim} {owner : Owner}
      (contested : claim.Contested markers parameters owner) :
      Denies markers parameters (claim :: rest) (.conflict claim.criterion claim.name owner)
  | later {parameters : ParameterMap} {claim : Claim} {rest : List Claim} {error : QueryError}
      (admissible : claim.Admissible markers parameters)
      (others : Denies markers (parameters.grant claim) rest error) :
      Denies markers parameters (claim :: rest) error

theorem Denies.split {markers : List String} {parameters : ParameterMap} {claims : List Claim}
    {error : QueryError} (denies : Denies markers parameters claims error) :
    ∃ front claim back owner, claims = front ++ claim :: back ∧
      claim.Contested markers (parameters.grantAll front) owner ∧
      error = .conflict claim.criterion claim.name owner := by
  induction denies with
  | here contested => exact ⟨[], _, _, _, rfl, contested, rfl⟩
  | later _ _ ih =>
    obtain ⟨front, claim, back, owner, rfl, contested, same⟩ := ih
    exact ⟨_ :: front, claim, back, owner, rfl, contested, same⟩

end ParameterMap

namespace Constraint

variable {setting : Setting} {names : List String}

/-! ### Parameters -/

theorem supply_error {claim : Claim} {before : Progress} {error : QueryError}
    (fails : (supply setting claim.criterion claim.name claim.value).run before = .error error) :
    ∃ owner, claim.Contested setting.markers before.parameters owner ∧
      error = .conflict claim.criterion claim.name owner := by
  cases found : before.parameters.get? claim.name with
  | some binding =>
    simp only [supply, StateT.run_bind, StateT.run_get, pure_bind, found] at fails
    split at fails
    · rename_i refused
      refine ⟨binding.owner, .held (ParameterMap.mem_untyped found) fun own => ?_,
        (Except.error.inj fails).symm⟩
      simpa [own] using refused
    · cases fails
  | none =>
    simp only [supply, StateT.run_bind, StateT.run_get, pure_bind, found] at fails
    split at fails
    · rename_i refused
      refine ⟨.caller, .marked ?_, (Except.error.inj fails).symm⟩
      obtain ⟨marker, among, named⟩ := List.any_eq_true.mp refused
      exact List.mem_map.mpr ⟨marker, among, eq_of_beq named⟩
    · cases fails

/-- Of several claims, the first one that is contested is denied. -/
theorem supplyAll_error {criterion : String} {parameters : List (String × Value)}
    {before : Progress} {error : QueryError}
    (fails : (parameters.forM fun (name, value) => supply setting criterion name value).run before =
      .error error) :
    before.parameters.Denies setting.markers
      (parameters.map fun (name, value) => (⟨criterion, name, value⟩ : Claim)) error := by
  induction parameters generalizing before with
  | nil => cases fails
  | cons parameter rest ih =>
    obtain ⟨name, value⟩ := parameter
    let claim : Claim := ⟨criterion, name, value⟩
    change (supply setting criterion name value >>= fun _ =>
      rest.forM fun (name, value) => supply setting criterion name value).run before = _ at fails
    rw [StateT.run_bind] at fails
    rcases error_of_bind fails with fails | ⟨⟨_, between⟩, run, fails⟩
    · obtain ⟨owner, contested, rfl⟩ := supply_error (show (supply setting claim.criterion claim.name
        claim.value).run before = _ from fails)
      exact .here contested
    · obtain ⟨granted, refused⟩ := supply_run setting claim before
      by_cases admissible : claim.Admissible setting.markers before.parameters
      · obtain ⟨_, rfl⟩ := Prod.mk.inj (Except.ok.inj (run.symm.trans (granted admissible)))
        exact .later admissible (ih fails)
      · obtain ⟨_, conflict⟩ := refused admissible
        cases run.symm.trans conflict

/-! ### Visits -/

/-- A criterion cannot be applied to a range: it does not answer, or it is denied what it asks for. -/
inductive Visit.Refused (setting : Setting) (parameters : ParameterMap) (visit : Visit) :
    QueryError → Prop where
  | unanswered {error : QueryError} (fails : visit.offer setting = .error error) :
      Refused setting parameters visit error
  | denied {request : Request} {error : QueryError} (asked : visit.request? setting = some request)
      (denies : parameters.Denies setting.markers request.claims error) :
      Refused setting parameters visit error

/-- The visits before one are granted, and this one is refused. -/
inductive Blocked (setting : Setting) (parameters : ParameterMap) (visits : List Visit)
    (error : QueryError) : Prop where
  | intro {first rest : List Visit} {visit : Visit} (split : visits = first ++ visit :: rest)
      (granted : Granted setting parameters first)
      (refused : visit.Refused setting (parameters.grantAll (claimsOf setting first)) error) :
      Blocked setting parameters visits error

theorem Blocked.append {parameters : ParameterMap} {visits : List Visit} {error : QueryError}
    (blocked : Blocked setting parameters visits error) (more : List Visit) :
    Blocked setting parameters (visits ++ more) error := by
  obtain ⟨rfl, granted, refused⟩ := blocked
  exact .intro (by rw [List.append_assoc, List.cons_append]) granted refused

theorem Blocked.behind {parameters : ParameterMap} {visits before : List Visit} {error : QueryError}
    (granted : Granted setting parameters before)
    (blocked : Blocked setting (parameters.grantAll (claimsOf setting before)) visits error) :
    Blocked setting parameters (before ++ visits) error := by
  obtain ⟨rfl, others, refused⟩ := blocked
  rename_i first rest visit
  have grants : (parameters.grantAll (claimsOf setting before)).grantAll (claimsOf setting first) =
      parameters.grantAll (claimsOf setting (before ++ first)) := by
    rw [claimsOf_append]
    exact List.foldl_append.symm
  exact .intro (List.append_assoc _ _ _).symm (granted_append.mpr ⟨granted, others⟩) (grants ▸ refused)

/-- A step that makes visits fails because of the first one that is refused. -/
structure Stops {α : Type} (setting : Setting) (names : List String) (step : Constrain α)
    (visits : List Visit) : Prop where
  makes : Makes setting names step visits
  blocked : ∀ before error, before.Spares names → step.run before = .error error →
    Blocked setting before.parameters visits error

namespace Stops

variable {α β : Type}

theorem bind {step : Constrain α} {next : α → Constrain β} {first rest : List Visit}
    (start : Stops setting names step first)
    (others : ∀ value, Stops setting names (next value) rest) :
    Stops setting names (step >>= next) (first ++ rest) := by
  refine ⟨start.makes.bind fun value => (others value).makes, fun before error spares fails => ?_⟩
  rw [StateT.run_bind] at fails
  rcases error_of_bind fails with fails | ⟨⟨value, between⟩, run, fails⟩
  · exact (start.blocked before error spares fails).append rest
  · obtain ⟨spared, granted, parameters⟩ := start.makes before value between spares run
    have blocked := (others value).blocked between error spared fails
    rw [parameters] at blocked
    exact blocked.behind granted

theorem of_map {step : Constrain α} (f : α → β) {visits : List Visit}
    (stops : Stops setting names (f <$> step) visits) : Stops setting names step visits := by
  refine ⟨.of_map f stops.makes, fun before error spares fails => ?_⟩
  refine stops.blocked before error spares ?_
  rw [map_eq_pure_bind, StateT.run_bind, fails]
  rfl

theorem written {step : Query → Constrain Query} {query : Query} {visits : List Visit}
    (caller : query.allAliases ⊆ names) (stops : Stops setting names (step query) visits) :
    Stops setting names (unlessInjected step query) visits := by
  refine ⟨.written caller stops.makes, fun before error spares fails => ?_⟩
  refine stops.blocked before error spares ?_
  change StateT.run (if before.injected.any (·.1 == query.root.name.value) then _ else _) _ = _ at fails
  rwa [if_neg (by simp [spares.not_injected caller])] at fails

/-- A contribution is refused because of its parameters: its condition can always be copied. -/
theorem contribution {visit : Visit} {contribution : Contribution}
    (offer : visit.offer setting = .ok (some contribution)) :
    Stops setting names (contribute setting visit.criterion.name contribution) [visit] := by
  refine ⟨contribute_makes offer, fun before error _ fails => ?_⟩
  have asked : visit.request? setting = some ⟨visit.range, visit.criterion.name, contribution⟩ := by
    rw [Visit.request?, offer]
  have copies : (settling (fun _ => True) fun _ => False).of
      (contribution.predicate.mapSubqueries fun query =>
        freshen visit.criterion.name query.nesting query) fun _ => True :=
    copy_settling (fun _ _ _ => trivial) _
  rw [contribute, StateT.run_bind] at fails
  rcases error_of_bind fails with fails | ⟨⟨_, between⟩, _, fails⟩
  · exact .intro (List.nil_append _).symm ⟨List.forall_mem_nil _, trivial⟩
      (.denied asked (supplyAll_error fails))
  · rw [StateT.run_bind] at fails
    rcases error_of_bind fails with fails | ⟨_, _, fails⟩
    · exact (copies.2 between error fails trivial).elim
    · cases fails

end Stops

/-- Criteria make visits and stop at the first one that is refused. -/
def stopping (setting : Setting) (names : List String) : Rounds setting names where
  of := Stops setting names
  silent := fun value _ nothing => ⟨.pure nothing value, fun _ _ _ fails => nomatch fails⟩
  unanswered := by
    intro α error visits some fails
    refine ⟨.throw error visits, fun before other _ run => ?_⟩
    obtain rfl := Except.error.inj run
    obtain ⟨visit, rest, rfl⟩ := List.exists_cons_of_ne_nil some
    exact .intro (List.nil_append _).symm ⟨List.forall_mem_nil _, trivial⟩
      (.unanswered (fails visit List.mem_cons_self))
  contribution := Stops.contribution
  bind := Stops.bind
  of_map := Stops.of_map
  written := Stops.written

end Constraint

namespace Model

open Constraint

variable {schema catalog : Schema} {query : Query} {parameters : ParameterMap} {registry : Registry}
  {scope : Scope} {security : SecurityContext} {bound : Model}

/-- Criteria cannot be applied to a bound query because of the first visit that is refused, or because of
the names of the query with their conditions. -/
theorem constrain_blocked (bind : Model.bind schema query parameters = .ok bound) {error : QueryError}
    (fails : bound.constrain catalog registry scope security = .error error) :
    let setting := bound.setting catalog registry scope security
    Blocked setting bound.parameters setting.visits error ∨ setting.Satisfied ∧ error.OfLookup := by
  intro setting
  by_cases none : bound.pending registry = []
  · rw [constrain_nothing none] at fails
    cases fails
  · obtain ⟨applied, runs⟩ := constrain_run none
    rw [runs] at fails
    have caller : bound.query.allAliases ⊆ bound.aliases :=
      (bind_ranges bind).2.2.1 ▸ List.Subset.refl _
    have stops : Stops setting bound.aliases _ setting.visits :=
      (stopping setting bound.aliases).levels none (fun name _ => bind_isClosed bind name) _
        bound.query (Nat.le_refl _) caller
    rcases error_of_bind fails with fails | ⟨⟨result, progress⟩, run, fails⟩
    · exact .inl (stops.blocked bound.progress error (bind_spares bind) fails)
    · exact .inr ⟨(stops.makes bound.progress result progress (bind_spares bind) run).2.1,
        ofTree_ofLookup fails⟩

end Model

end QueryGuard
