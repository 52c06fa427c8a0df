import QueryGuard.Proofs.Rewriting.Outcome
/-!
Steps that make visits, whatever is said of them: what holds of one visit, and of steps one after the other
with what is visited in their order, holds of the application of criteria to all ranges that are reached.
-/

set_option autoImplicit false

namespace QueryGuard

namespace Constraint

/-- A way to say what steps do that make visits one after the other. Steps without visits, and visits of
which nothing comes, may be left out; where a visit is not answered, a step fails. -/
structure Rounds (setting : Setting) (names : List String) where
  of : {α : Type} → Constrain α → List Visit → Prop
  silent : ∀ {α : Type} (value : α) {visits : List Visit},
    (∀ visit ∈ visits, visit.offer setting = .ok none) → of (pure value) visits
  unanswered : ∀ {α : Type} {error : QueryError} {visits : List Visit}, visits ≠ [] →
    (∀ visit ∈ visits, visit.offer setting = .error error) → of (throw error : Constrain α) visits
  contribution : ∀ {visit : Visit} {contribution : Contribution},
    visit.offer setting = .ok (some contribution) →
      of (contribute setting visit.criterion.name contribution) [visit]
  bind : ∀ {α β : Type} {step : Constrain α} {next : α → Constrain β} {first rest : List Visit},
    of step first → (∀ value, of (next value) rest) → of (step >>= next) (first ++ rest)
  of_map : ∀ {α β : Type} {step : Constrain α} (f : α → β) {visits : List Visit},
    of (f <$> step) visits → of step visits
  written : ∀ {step : Query → Constrain Query} {query : Query} {visits : List Visit},
    query.allAliases ⊆ names → of (step query) visits → of (unlessInjected step query) visits

namespace Rounds

variable {setting : Setting} {names : List String} (rounds : Rounds setting names)

/-! ### Queries inside -/

/-- The visits do not depend on what is done with the result. -/
theorem map {α β : Type} {step : Constrain α} (f : α → β) {visits : List Visit}
    (visited : rounds.of step visits) : rounds.of (f <$> step) visits := by
  rw [map_eq_pure_bind, ← List.append_nil visits]
  exact rounds.bind visited fun value => rounds.silent (f value) (List.forall_mem_nil _)

theorem mapM {α β : Type} {step : α → Constrain β} {visits : α → List Visit} {items : List α}
    (each : ∀ x ∈ items, rounds.of (step x) (visits x)) :
    rounds.of (items.mapM step) (items.flatMap visits) := by
  induction items with
  | nil =>
    rw [List.mapM_nil]
    exact rounds.silent _ (List.forall_mem_nil _)
  | cons first rest ih =>
    obtain ⟨here, others⟩ := List.forall_mem_cons.mp each
    rw [List.mapM_cons]
    refine rounds.bind here fun value => ?_
    rw [bind_pure_comp]
    exact rounds.map _ (ih others)

/-- The queries inside a query are visited one after the other. -/
theorem mapSubqueries {step : Query → Constrain Query} {visits : Query → List Visit} {query : Query}
    (each : ∀ inner ∈ query.subqueries, rounds.of (step inner) (visits inner)) :
    rounds.of (query.mapSubqueries step) (query.subqueries.flatMap visits) := by
  have visited := rounds.mapM each
  rw [← Query.subqueries_mapSubqueries] at visited
  exact rounds.of_map _ visited

/-! ### One range -/

/-- A criterion is applied to a range. -/
theorem part (visit : Visit) {range : BoundRange} {entity : Entity}
    (found : setting.model.range? visit.range = some range) (written : range.injectedBy = none)
    (known : setting.schema.entity? range.entity = some entity) :
    rounds.of (part setting entity visit.range visit.criterion) [visit] := by
  have offer := visit.offer_written found written known
  cases applies : visit.criterion.appliesTo entity with
  | false =>
    rw [applies] at offer
    rw [part_idle setting visit.range applies]
    exact rounds.silent none (List.forall_mem_singleton.mpr offer)
  | true =>
    rw [applies, if_pos rfl] at offer
    rw [part_applied setting visit.range applies]
    cases result : visit.criterion.contribute (contextOf setting entity visit.range) with
    | error error =>
      rw [result] at offer
      exact rounds.unanswered (List.cons_ne_nil _ _) (List.forall_mem_singleton.mpr offer)
    | ok contributed =>
      rw [result] at offer
      cases contributed with
      | none => exact rounds.silent none (List.forall_mem_singleton.mpr offer)
      | some contribution => exact rounds.contribution offer

/-- All criteria are applied to the range of an alias. -/
theorem parts (some : setting.criteria ≠ []) (name : String) :
    rounds.of (parts setting name) (setting.visitsTo name) := by
  have offers : ∀ {answer : Except QueryError (Option Contribution)},
      (∀ criterion, Visit.offer setting ⟨name, criterion⟩ = answer) →
      ∀ visit ∈ setting.visitsTo name, visit.offer setting = answer :=
    fun each => List.forall_mem_map.mpr fun criterion _ => each criterion
  unfold Constraint.parts
  cases found : setting.model.range? name with
  | none => exact rounds.silent [] (offers fun criterion => by simp only [Visit.offer, found]; rfl)
  | some range =>
    cases written : range.injectedBy with
    | some owner =>
      simp only [written, Option.isSome_some, ↓reduceIte]
      exact rounds.silent [] (offers fun criterion => by
        simp only [Visit.offer, found, written, Option.isSome_some, ↓reduceIte]
        rfl)
    | none =>
      simp only [written, Option.isSome_none, Bool.false_eq_true, ↓reduceIte]
      cases known : setting.schema.entity? range.entity with
      | none =>
        refine rounds.unanswered (by simpa [Setting.visitsTo] using some) (offers fun criterion => ?_)
        simp only [Visit.offer, found, written, known, Option.isSome_none, Bool.false_eq_true,
          ↓reduceIte]
        rfl
      | some entity =>
        have each : ∀ criterion ∈ setting.criteria,
            rounds.of (Constraint.part setting entity name criterion) [⟨name, criterion⟩] :=
          fun criterion _ => rounds.part ⟨name, criterion⟩ found written known
        have visits : setting.visitsTo name = setting.criteria.flatMap fun criterion =>
            [(⟨name, criterion⟩ : Visit)] := (List.flatMap_pure_eq_map _ _).symm
        rw [visits]
        dsimp only
        rw [bind_pure_comp]
        exact rounds.map _ (rounds.mapM each)

/-! ### Levels -/

/-- A level makes the visits to its own ranges, and then those of the queries inside it. -/
theorem level (some : setting.criteria ≠ []) {nested : Query → Constrain Query}
    {visits : Query → List Visit} {query : Query}
    (inside : ∀ inner ∈ query.subqueries, rounds.of (nested inner) (visits inner)) :
    rounds.of (constrainLevel setting nested query)
      ((query.ownReached setting.scope).flatMap setting.visitsTo ++
        if setting.scope.subqueries then query.subqueries.flatMap visits else []) := by
  have joined : ∀ join ∈ query.joins, rounds.of
      (if setting.scope.joins then Constraint.parts setting join.name.value else return [])
      (if setting.scope.joins then setting.visitsTo join.name.value else []) := by
    intro join _
    split
    · exact rounds.parts some join.name.value
    · exact rounds.silent _ (List.forall_mem_nil _)
  have replaced : rounds.of
      (if setting.scope.subqueries then query.mapSubqueries nested else pure query)
      (if setting.scope.subqueries then query.subqueries.flatMap visits else []) := by
    split
    · exact rounds.mapSubqueries inside
    · exact rounds.silent query (List.forall_mem_nil _)
  rw [constrainLevel_steps, Setting.visits_ownReached, List.append_assoc]
  exact rounds.bind (rounds.parts some _) fun rootParts => rounds.bind (rounds.mapM joined)
    fun joinParts => rounds.map _ replaced

/-- Criteria are applied to the ranges that are reached of a query that the caller wrote. -/
theorem levels (some : setting.criteria ≠ [])
    (caller : ∀ name ∈ names, setting.isClosed name = false) (depth : Nat) (query : Query)
    (within : query.nesting ≤ depth) (among : query.allAliases ⊆ names) :
    rounds.of (constrainLevels setting depth query)
      ((query.reached setting.scope setting.isClosed).flatMap setting.visitsTo) := by
  have visits : ∀ query : Query,
      (query.reached setting.scope setting.isClosed).flatMap setting.visitsTo =
        (query.ownReached setting.scope).flatMap setting.visitsTo ++
          if setting.scope.subqueries then query.subqueries.flatMap fun inner =>
            (inner.reachedInside setting.scope setting.isClosed).flatMap setting.visitsTo
          else [] := by
    intro query
    rw [Query.reached_eq, List.flatMap_append]
    split
    · rw [List.flatMap_assoc]
    · rfl
  induction depth generalizing query with
  | zero =>
    rw [visits]
    refine rounds.level some fun inner member => ?_
    exact absurd (Query.nesting_lt member) (by omega)
  | succ depth ih =>
    rw [visits]
    refine rounds.level some fun inner member => ?_
    have within : inner.nesting ≤ depth := by
      have := Query.nesting_lt member
      omega
    have among : inner.allAliases ⊆ names := fun name found =>
      among (Query.allAliases_subset member found)
    have own : inner.reachedInside setting.scope setting.isClosed =
        inner.reached setting.scope setting.isClosed :=
      if_neg (by simp [caller _ (among inner.root_mem_allAliases)])
    rw [own]
    exact rounds.written among (ih inner within among)

end Rounds

end Constraint

end QueryGuard
