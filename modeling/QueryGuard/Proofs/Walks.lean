import QueryGuard.Model.Constraint
import QueryGuard.Proofs.Binding.Actions
import QueryGuard.Proofs.Rewriting.Refilling
import QueryGuard.Proofs.Siblings.Choosing
/-!
Which queries the walks through a tree come to. Replacing queries calls its step for those inside a condition,
in their order and once each, until a call fails. Adding conditions, telling queries side by side apart and
looking up names come to the queries inside the conditions of a level, all of them in that same order.
-/

set_option autoImplicit false

namespace QueryGuard

/-! ### Calls of a step -/

/-- A call of a step: the query that it is called for, and what comes of it. -/
structure Call (ε : Type) where
  query : Query
  outcome : Except ε Query

section

variable {ε σ α β : Type}

/-- The step, which also keeps a record of its calls. -/
def recording (step : Query → ExceptT ε (StateM σ) Query) (query : Query) :
    ExceptT ε (StateM (σ × List (Call ε))) Query :=
  ExceptT.mk fun (state, calls) =>
    let (outcome, after) := (step query).run.run state
    (outcome, after, calls ++ [⟨query, outcome⟩])

theorem recording_run {step : Query → ExceptT ε (StateM σ) Query} {query : Query}
    {before after : σ} {outcome : Except ε Query}
    (run : (step query).run.run before = (outcome, after)) (calls : List (Call ε)) :
    (recording step query).run.run (before, calls) = (outcome, after, calls ++ [⟨query, outcome⟩]) := by
  change (match (step query).run.run before with
    | (outcome, after) => (outcome, after, calls ++ [(⟨query, outcome⟩ : Call ε)])) = _
  rw [run]

theorem ExceptT.run_bind_ok {first : ExceptT ε (StateM σ) α} {next : α → ExceptT ε (StateM σ) β}
    {before after : σ} {value : α} (run : first.run.run before = (.ok value, after)) :
    (first >>= next).run.run before = (next value).run.run after := by
  rw [ExceptT.run_bind, StateT.run_bind, run]
  rfl

theorem ExceptT.run_bind_error {first : ExceptT ε (StateM σ) α}
    {next : α → ExceptT ε (StateM σ) β} {before after : σ} {error : ε}
    (run : first.run.run before = (.error error, after)) :
    (first >>= next).run.run before = (.error error, after) := by
  rw [ExceptT.run_bind, StateT.run_bind, run]
  rfl

theorem ExceptT.run_map_eq {first : ExceptT ε (StateM σ) α} {f : α → β} {before after : σ}
    {result : Except ε α} (run : first.run.run before = (result, after)) :
    (f <$> first).run.run before = (result.map f, after) := by
  rw [ExceptT.run_map, StateT.run_map, run]
  rfl

/-- The calls for queries one after the other, and what comes of all: the results, unless a call fails. -/
inductive Records : List Query → List (Call ε) → Except ε (List Query) → Prop where
  | nil : Records [] [] (.ok [])
  | fails (query : Query) (rest : List Query) (error : ε) :
      Records (query :: rest) [⟨query, .error error⟩] (.error error)
  | next (query result : Query) {rest : List Query} {calls : List (Call ε)}
      {outcome : Except ε (List Query)} (others : Records rest calls outcome) :
      Records (query :: rest) (⟨query, .ok result⟩ :: calls) (outcome.map (result :: ·))

theorem mapM_records (step : Query → ExceptT ε (StateM σ) Query) (queries : List Query) (before : σ)
    (earlier : List (Call ε)) : ∃ calls outcome after, Records queries calls outcome ∧
      (queries.mapM step).run.run before = (outcome, after) ∧
      (queries.mapM (recording step)).run.run (before, earlier) =
        (outcome, after, earlier ++ calls) := by
  induction queries generalizing before earlier with
  | nil => exact ⟨[], .ok [], before, .nil, rfl, by rw [List.append_nil]; rfl⟩
  | cons query rest ih =>
    rw [List.mapM_cons, List.mapM_cons]
    cases run : (step query).run.run before with
    | mk outcome after =>
      have recorded := recording_run run earlier
      cases outcome with
      | error error =>
        exact ⟨_, _, after, .fails query rest error, ExceptT.run_bind_error run,
          ExceptT.run_bind_error recorded⟩
      | ok result =>
        obtain ⟨calls, outcome, reached, others, runs, records⟩ :=
          ih after (earlier ++ [⟨query, .ok result⟩])
        refine ⟨_, _, reached, .next query result others, ?_, ?_⟩
        · rw [ExceptT.run_bind_ok run, bind_pure_comp]
          exact ExceptT.run_map_eq runs
        · rw [ExceptT.run_bind_ok recorded, bind_pure_comp, ExceptT.run_map_eq records,
            List.append_assoc]
          rfl

namespace Records

variable {queries : List Query} {calls : List (Call ε)} {outcome : Except ε (List Query)}

theorem inOrder (records : Records queries calls outcome) :
    calls.map (·.query) <+: queries := by
  induction records with
  | nil => exact List.prefix_rfl
  | fails query rest error => exact ⟨rest, rfl⟩
  | next query result others ih => exact List.cons_prefix_cons.mpr ⟨rfl, ih⟩

theorem complete (records : Records queries calls outcome)
    (succeed : ∀ call ∈ calls, ∃ result, call.outcome = .ok result) :
    calls.map (·.query) = queries := by
  induction records with
  | nil => rfl
  | fails query rest error =>
    obtain ⟨_, ok⟩ := succeed _ List.mem_cons_self
    cases ok
  | next query result others ih =>
    obtain ⟨_, succeed⟩ := List.forall_mem_cons.mp succeed
    exact congrArg (query :: ·) (ih succeed)

theorem succeeds (records : Records queries calls outcome) :
    ∀ call ∈ calls.dropLast, ∃ result, call.outcome = .ok result := by
  induction records with
  | nil => exact List.forall_mem_nil _
  | fails query rest error => exact List.forall_mem_nil _
  | @next query result rest calls outcome others ih =>
    cases calls with
    | nil => exact List.forall_mem_nil _
    | cons first more =>
      rw [List.dropLast_cons_cons, List.forall_mem_cons]
      exact ⟨⟨result, rfl⟩, ih⟩

theorem error_iff (records : Records queries calls outcome) (error : ε) :
    outcome = .error error ↔ ∃ call ∈ calls, call.outcome = .error error := by
  induction records with
  | nil => simp
  | fails query rest other => simp
  | @next query result rest calls outcome others ih =>
    have mapped : outcome.map (result :: ·) = .error error ↔ outcome = .error error := by
      cases outcome <;> simp [Except.map]
    simp [mapped, ih]

theorem unchanged (records : Records queries calls outcome)
    (same : ∀ call ∈ calls, call.outcome = .ok call.query) : outcome = .ok queries := by
  induction records with
  | nil => rfl
  | fails query rest error => cases same _ List.mem_cons_self
  | next query result others ih =>
    obtain ⟨here, further⟩ := List.forall_mem_cons.mp same
    rw [ih further, Except.ok.inj here]
    rfl

end Records

/-- What comes of replacing the queries inside a condition, by the calls of the step. -/
structure Predicate.Visited (predicate : Predicate) (calls : List (Call ε))
    (result : Except ε Predicate) : Prop where
  /-- No query is left out, called for twice or out of its order. -/
  inOrder : calls.map (·.query) <+: predicate.subqueries
  complete : (∀ call ∈ calls, ∃ result, call.outcome = .ok result) →
    calls.map (·.query) = predicate.subqueries
  /-- Nothing is called behind a call that fails. -/
  succeeds : ∀ call ∈ calls.dropLast, ∃ result, call.outcome = .ok result
  error_iff : ∀ error, result = .error error ↔ ∃ call ∈ calls, call.outcome = .error error
  unchanged : (∀ call ∈ calls, call.outcome = .ok call.query) → result = .ok predicate

theorem Predicate.mapSubqueries_visited (step : Query → ExceptT ε (StateM σ) Query)
    (predicate : Predicate) (before : σ) : ∃ calls result after,
      (predicate.mapSubqueries (recording step)).run.run (before, []) = (result, after, calls) ∧
      (predicate.mapSubqueries step).run.run before = (result, after) ∧
      predicate.Visited calls result := by
  obtain ⟨calls, outcome, after, records, runs, recorded⟩ :=
    mapM_records step predicate.subqueries before []
  refine ⟨calls, outcome.map predicate.refill, after, ?_, ?_, records.inOrder, records.complete,
    records.succeeds, fun error => ?_, fun same => ?_⟩
  · rw [mapSubqueries_eq]
    exact ExceptT.run_map_eq recorded
  · rw [mapSubqueries_eq]
    exact ExceptT.run_map_eq runs
  · rw [← records.error_iff]
    cases outcome <;> simp [Except.map]
  · rw [records.unchanged same]
    exact congrArg Except.ok predicate.refill_subqueries

end

/-! ### Levels -/

/-- A walk that goes down level by level takes, for each query inside, the levels of that query. -/
theorem Query.levels_eq {α : Type} (level : (Query → α) → Query → α) (levels : Nat → Query → α)
    (idle : Query → α) (zero : levels 0 = level idle)
    (succ : ∀ depth, levels (depth + 1) = level (levels depth))
    (congr : ∀ {query : Query} {step step' : Query → α},
      (∀ inner : Query, inner.nesting < query.nesting → step inner = step' inner) →
      level step query = level step' query) (query : Query) :
    levels query.nesting query = level (fun inner => levels inner.nesting inner) query := by
  have enough : ∀ (depth : Nat) (query : Query), query.nesting ≤ depth →
      levels depth query = level (fun inner => levels inner.nesting inner) query := by
    intro depth
    induction depth using Nat.strongRecOn with
    | ind depth ih =>
      intro query within
      cases depth with
      | zero =>
        rw [zero]
        exact congr fun inner smaller => absurd (Nat.lt_of_lt_of_le smaller within) (by simp)
      | succ depth =>
        rw [succ]
        refine congr fun inner smaller => ?_
        have deeper : inner.nesting ≤ depth := by omega
        rw [ih depth (Nat.lt_succ_self _) inner deeper,
          ih inner.nesting (by omega) inner (Nat.le_refl _)]
  exact enough query.nesting query (Nat.le_refl _)

theorem mapM_congr_left {m : Type → Type} [Monad m] [LawfulMonad m] {α β : Type} {f g : α → m β}
    {items : List α} (same : ∀ x ∈ items, f x = g x) : items.mapM f = items.mapM g := by
  induction items with
  | nil => rw [List.mapM_nil, List.mapM_nil]
  | cons first rest ih =>
    obtain ⟨here, others⟩ := List.forall_mem_cons.mp same
    rw [List.mapM_cons, List.mapM_cons, here, ih others]

namespace Constraint

variable (setting : Setting)

/-- Adding conditions to a level comes to the queries inside it one after the other. -/
theorem constrainLevel_eq (nested : Query → Constrain Query) (query : Query) :
    constrainLevel setting nested query = do
      let rootParts ← parts setting query.root.name.value
      let joinParts ← query.joins.mapM fun join =>
        if setting.scope.joins then parts setting join.name.value else return []
      let inside ←
        if setting.scope.subqueries then query.subqueries.mapM nested else pure query.subqueries
      return conjoinLevel (query.refill inside) rootParts joinParts := by
  cases enabled : setting.scope.subqueries with
  | true =>
    simp only [constrainLevel, enabled, ↓reduceIte, Query.mapSubqueries_eq, bind_map_left]
  | false =>
    simp only [constrainLevel, enabled, Bool.false_eq_true, ↓reduceIte, pure_bind,
      Query.refill_subqueries]

theorem constrainLevel_congr {nested nested' : Query → Constrain Query} {query : Query}
    (same : ∀ inner : Query, inner.nesting < query.nesting → nested inner = nested' inner) :
    constrainLevel setting nested query = constrainLevel setting nested' query := by
  rw [constrainLevel_eq, constrainLevel_eq,
    mapM_congr_left fun inner member => same inner (Query.nesting_lt member)]

theorem unlessInjected_idle : unlessInjected (fun query => return query) = fun query => return query := by
  funext query
  apply StateT.ext
  intro before
  rw [unlessInjected, StateT.run_bind, StateT.run_get, pure_bind]
  split <;> rfl

theorem constrainLevels_eq (query : Query) :
    constrainLevels setting query.nesting query =
      constrainLevel setting
        (unlessInjected fun inner => constrainLevels setting inner.nesting inner) query := by
  refine Query.levels_eq (fun step => constrainLevel setting (unlessInjected step))
    (constrainLevels setting) (fun query => return query) ?_ (fun _ => rfl) ?_ query
  · rw [unlessInjected_idle]
    rfl
  · intro query step step' same
    refine constrainLevel_congr setting fun inner smaller => ?_
    rw [unlessInjected, same inner smaller]
    rfl

end Constraint

namespace Siblings

/-- Renaming a level comes to the queries inside it one after the other. -/
theorem level_eq (nested : List Chosen → Query → StateM State Query) (visible : List Chosen)
    (query : Query) :
    level nested visible query = do
      let chosen ← chooseAll visible (query.aliases.map (·.value))
      let renamed := query.rename (changes chosen)
      let inside ← renamed.subqueries.mapM (nested (chosen ++ visible))
      modify fun state => { state with closed := chosen.map (·.2) ++ state.closed }
      return renamed.refill inside := by
  rw [level]
  simp only [Query.mapSubqueries_eq, bind_map_left]

theorem level_congr {nested nested' : List Chosen → Query → StateM State Query} {query : Query}
    (same : ∀ inner : Query, inner.nesting < query.nesting →
      ∀ visible, nested visible inner = nested' visible inner) (visible : List Chosen) :
    level nested visible query = level nested' visible query := by
  rw [level_eq, level_eq]
  refine bind_congr fun chosen => ?_
  dsimp only
  rw [mapM_congr_left fun inner member => same inner ?_ _]
  rw [← query.nesting_rename (changes chosen)]
  exact Query.nesting_lt member

theorem levels_eq (visible : List Chosen) (query : Query) :
    levels query.nesting visible query =
      level (fun visible inner => levels inner.nesting visible inner) visible query := by
  have unfolded := Query.levels_eq
    (fun (step : Query → List Chosen → StateM State Query) query visible =>
      level (fun visible inner => step inner visible) visible query)
    (fun depth query visible => levels depth visible query) (fun query _ => return query) rfl
    (fun _ => rfl)
    (fun same => funext fun visible => level_congr (fun inner smaller visible =>
      congrFun (same inner smaller) visible) visible) query
  exact congrFun unfolded visible

end Siblings

namespace Binding

/-- What looking up a level consists of: actions of its own, and queries inside its conditions. -/
inductive Step where
  | own (action : Action)
  | enter (query : Query)

def Step.query? : Step → Option Query
  | .own _ => none
  | .enter query => some query

mutual

/-- The steps of a condition. -/
def conditionSteps (visible : Visible) : Predicate → List Step
  | .and operands => conditionStepsOfAll visible operands
  | .or operands => conditionStepsOfAll visible operands
  | .not operand => conditionSteps visible operand
  | .group operand => conditionSteps visible operand
  | .test leaf => (testActions visible leaf).map .own
  | .inQuery tested query _ => (exprActions visible tested).map .own ++ [.enter query]
  | .existsIn query _ => [.enter query]

def conditionStepsOfAll (visible : Visible) : List Predicate → List Step
  | [] => []
  | predicate :: rest => conditionSteps visible predicate ++ conditionStepsOfAll visible rest

end

section

variable (setting : Setting)

/-- The steps of a level, in the order of the lookup. -/
def levelSteps (query : Query) (around : Visible) : List Step :=
  let visible := levelVisible setting around query
  (rangeActions setting around query).map .own ++
    query.items.flatMap (fun item => (exprActions visible item.expr).map .own) ++
    query.joins.flatMap (fun join => join.condition.toList.flatMap (conditionSteps visible)) ++
    query.filter.toList.flatMap (conditionSteps visible) ++
    query.groupBy.flatMap (fun expr => (exprActions visible expr).map .own) ++
    query.having.toList.flatMap (conditionSteps visible) ++
    query.orderBy.flatMap (fun item => (exprActions visible item.expr).map .own)

/-- Looks up a query inside the visible aliases around it. -/
def bindWithin (query : Query) (around : Visible) : Bind Unit :=
  bindLevel setting (query.map (Predicate.fold (walk setting))) around

/-- Takes a step of a level: a query inside sees the aliases of the level, and is one level deeper. -/
def Step.take (visible : Visible) : Step → Bind Unit
  | .own action => perform setting action
  | .enter query => bindWithin setting query visible.inside

def Step.actions (visible : Visible) : Step → List Action
  | .own action => [action]
  | .enter query => queryActions setting query visible.inside

end

variable {setting : Setting}

theorem conditionStepsOfAll_eq_flatMap (visible : Visible) (predicates : List Predicate) :
    conditionStepsOfAll visible predicates = predicates.flatMap (conditionSteps visible) := by
  induction predicates with
  | nil => rfl
  | cons predicate rest ih => rw [conditionStepsOfAll, List.flatMap_cons, ih]

theorem filterMap_own (actions : List Action) : (actions.map Step.own).filterMap Step.query? = [] := by
  rw [List.filterMap_map]
  exact List.filterMap_eq_nil_iff.mpr fun _ _ => rfl

theorem flatMap_own (visible : Visible) (actions : List Action) :
    (actions.map Step.own).flatMap (Step.actions setting visible) = actions := by
  rw [List.flatMap_map]
  exact List.flatMap_singleton' actions

theorem bindWithin_eq (query : Query) (around : Visible) :
    bindWithin setting query around = performAll setting (queryActions setting query around) :=
  bindLevel_eq (fun condition _ => bindCondition_eq condition) around

/-- Looking up a condition comes to the queries inside it. -/
theorem queries_conditionSteps (visible : Visible) (predicate : Predicate) :
    (conditionSteps visible predicate).filterMap Step.query? = predicate.subqueries := by
  induction predicate using Predicate.induction with
  | and operands ih =>
    rw [conditionSteps, conditionStepsOfAll_eq_flatMap, Predicate.subqueries_and,
      List.filterMap_flatMap, List.flatMap_congr ih]
  | or operands ih =>
    rw [conditionSteps, conditionStepsOfAll_eq_flatMap, Predicate.subqueries_or,
      List.filterMap_flatMap, List.flatMap_congr ih]
  | not operand ih => exact ih
  | group operand ih => exact ih
  | test test => exact filterMap_own _
  | inQuery tested query negated =>
    rw [conditionSteps, List.filterMap_append, filterMap_own]
    rfl
  | existsIn query negated => rfl

theorem actions_conditionSteps (visible : Visible) (predicate : Predicate) :
    (conditionSteps visible predicate).flatMap (Step.actions setting visible) =
      conditionActions setting predicate visible := by
  induction predicate using Predicate.induction with
  | and operands ih =>
    rw [conditionSteps, conditionStepsOfAll_eq_flatMap, conditionActions_and, List.flatMap_assoc,
      List.flatMap_congr ih]
  | or operands ih =>
    rw [conditionSteps, conditionStepsOfAll_eq_flatMap, conditionActions_or, List.flatMap_assoc,
      List.flatMap_congr ih]
  | not operand ih => exact ih
  | group operand ih => exact ih
  | test test => exact flatMap_own visible _
  | inQuery tested query negated =>
    rw [conditionSteps, List.flatMap_append, flatMap_own, conditionActions_inQuery,
      List.flatMap_singleton]
    rfl
  | existsIn query negated =>
    rw [conditionSteps, conditionActions_existsIn, List.flatMap_singleton]
    rfl

/-- Looking up a level comes to the queries inside its conditions. -/
theorem queries_levelSteps (query : Query) (around : Visible) :
    (levelSteps setting query around).filterMap Step.query? = query.subqueries := by
  have none : ∀ {α : Type} (items : List α), items.flatMap (fun _ => ([] : List Query)) = [] :=
    fun items => List.flatMap_eq_nil_iff.mpr fun _ _ => rfl
  simp only [levelSteps, List.filterMap_append, List.filterMap_flatMap, filterMap_own,
    queries_conditionSteps, none, Query.subqueries, Select.flatMap_conditions, List.nil_append,
    List.append_nil]

theorem actions_levelSteps (query : Query) (around : Visible) :
    (levelSteps setting query around).flatMap
        (Step.actions setting (levelVisible setting around query)) =
      queryActions setting query around := by
  rw [queryActions_eq]
  simp only [levelSteps, List.flatMap_append, List.flatMap_assoc, flatMap_own,
    actions_conditionSteps]

theorem performAll_actions (visible : Visible) (step : Step) :
    performAll setting (step.actions setting visible) = step.take setting visible := by
  cases step with
  | own action => exact performAll_singleton action
  | enter query => exact (bindWithin_eq query visible.inside).symm

/-- Looking up a query is taking the steps of its level. -/
theorem bindWithin_steps (query : Query) (around : Visible) :
    bindWithin setting query around = (levelSteps setting query around).forM
      (Step.take setting (levelVisible setting around query)) := by
  rw [bindWithin_eq, ← actions_levelSteps, performAll_flatMap]
  exact congrArg (List.forM _) (funext fun step => performAll_actions _ step)

end Binding

/-! ### All walks -/

/-- The walks agree on the queries inside. Replacing them calls its step for those of a condition, in their
order and once each, until a call fails. Adding conditions to a level, telling its aliases apart and looking up
its names go on with the queries that the level lists, in that order and once each; for the renaming these are
the ones that it has renamed, which are those it was given, one for one. -/
theorem subqueries_visited :
    (∀ {ε σ : Type} (step : Query → ExceptT ε (StateM σ) Query) (predicate : Predicate) (before : σ),
      ∃ calls result after,
        (predicate.mapSubqueries (recording step)).run.run (before, []) = (result, after, calls) ∧
        (predicate.mapSubqueries step).run.run before = (result, after) ∧
        predicate.Visited calls result) ∧
    (∀ (setting : Constraint.Setting) (query : Query),
      Constraint.constrainLevels setting query.nesting query = do
        let rootParts ← Constraint.parts setting query.root.name.value
        let joinParts ← query.joins.mapM fun join =>
          if setting.scope.joins then Constraint.parts setting join.name.value else return []
        let inside ←
          if setting.scope.subqueries then
            query.subqueries.mapM <| Constraint.unlessInjected fun inner =>
              Constraint.constrainLevels setting inner.nesting inner
          else pure query.subqueries
        return Constraint.conjoinLevel (query.refill inside) rootParts joinParts) ∧
    (∀ (visible : List Siblings.Chosen) (query : Query),
      Siblings.levels query.nesting visible query = do
        let chosen ← Siblings.chooseAll visible (query.aliases.map (·.value))
        let renamed := query.rename (Siblings.changes chosen)
        let inside ← renamed.subqueries.mapM fun inner =>
          Siblings.levels inner.nesting (chosen ++ visible) inner
        modify fun state => { state with closed := chosen.map (·.2) ++ state.closed }
        return renamed.refill inside) ∧
    (∀ (query : Query) (names : Renaming), (query.rename names).subqueries =
      query.subqueries.map fun inner => inner.rename (names.inside inner)) ∧
    (∀ (setting : Binding.Setting) (query : Query),
      Binding.bindQuery setting query = Binding.bindWithin setting query ⟨[], 0⟩) ∧
    ∀ (setting : Binding.Setting) (query : Query) (around : Binding.Visible),
      Binding.bindWithin setting query around =
        (Binding.levelSteps setting query around).forM
          (Binding.Step.take setting (Binding.levelVisible setting around query)) ∧
      (Binding.levelSteps setting query around).filterMap Binding.Step.query? =
        query.subqueries := by
  refine ⟨fun step predicate before => predicate.mapSubqueries_visited step before, ?_, ?_,
    Query.subqueries_rename, fun _ _ => rfl, ?_⟩
  · intro setting query
    rw [Constraint.constrainLevels_eq, Constraint.constrainLevel_eq]
  · intro visible query
    rw [Siblings.levels_eq, Siblings.level_eq]
  · exact fun setting query around =>
      ⟨Binding.bindWithin_steps query around, Binding.queries_levelSteps query around⟩

/-- A call that fails is the last one; where all calls give their queries back, so does the walk. -/
theorem subqueries_visited_orders :
    let orders := Query.ofEntity "Order" "o" none
    let members := { Query.ofEntity "Membership" "m" none with distinct := true }
    let predicate := Predicate.and [.existsIn orders false,
      .not (.group (.inQuery (.ofPath "c" []) members true)), .existsIn orders true]
    let counting : Query → ExceptT String (StateM Nat) Query := fun query => do
      modify (· + 1)
      return query
    let refusing : Query → ExceptT String (StateM Nat) Query := fun query => do
      if query.distinct then throw "distinct"
      counting query
    (∃ calls : List (Call String),
      (predicate.mapSubqueries (recording refusing)).run.run (0, []) = (.error "distinct", 1, calls) ∧
      calls.map (·.query) = [orders, members] ∧ calls.map (·.query) <+: predicate.subqueries ∧
      ∃ call ∈ calls, call.outcome = .error "distinct") ∧
    ∃ calls : List (Call String),
      (predicate.mapSubqueries (recording counting)).run.run (0, []) = (.ok predicate, 3, calls) ∧
      calls.map (·.query) = predicate.subqueries := by
  intro orders members predicate counting refusing
  constructor
  · obtain ⟨calls, result, after, recorded, _, visited⟩ := subqueries_visited.1 refusing predicate 0
    have run : (predicate.mapSubqueries (recording refusing)).run.run (0, []) =
        (.error "distinct", 1, [⟨orders, .ok orders⟩, ⟨members, .error "distinct"⟩]) := rfl
    obtain ⟨rfl, same⟩ := Prod.mk.inj (recorded.symm.trans run)
    obtain ⟨rfl, rfl⟩ := Prod.mk.inj same
    exact ⟨_, run, rfl, visited.inOrder, (visited.error_iff "distinct").mp rfl⟩
  · obtain ⟨calls, result, after, recorded, _, visited⟩ := subqueries_visited.1 counting predicate 0
    have run : (predicate.mapSubqueries (recording counting)).run.run (0, []) =
        (.ok predicate, 3, [⟨orders, .ok orders⟩, ⟨members, .ok members⟩, ⟨orders, .ok orders⟩]) := rfl
    obtain ⟨_, same⟩ := Prod.mk.inj (recorded.symm.trans run)
    obtain ⟨_, rfl⟩ := Prod.mk.inj same
    have given : ∀ call ∈ [(⟨orders, .ok orders⟩ : Call String), ⟨members, .ok members⟩,
        ⟨orders, .ok orders⟩], call.outcome = .ok call.query := by
      simp
    obtain rfl := visited.unchanged given
    exact ⟨_, run, visited.complete fun call member => ⟨_, given call member⟩⟩

end QueryGuard
