import Mathlib.Data.List.Flatten
import Mathlib.Data.List.Pairwise
import QueryGuard.Proofs.Rewriting.Visiting
/-!
Criteria extend a query by conditions for its ranges. Main statement: whatever is asked for and in
whichever order, the result is the query with the conditions of each range that is reached in their
places.
-/

set_option autoImplicit false

namespace QueryGuard

open Constraint

section

variable (parts : String → List Predicate)

/-- The walk that adds conditions for ranges. -/
def extendWalk : PredicateFold Predicate Query where
  and := .and
  or := .or
  not := .not
  group := .group
  test := .test
  inQuery := .inQuery
  existsIn := .existsIn
  query := fun query => conjoinLevel query (parts query.root.name.value)
    (query.joins.map fun join => parts join.name.value)

/-- The condition with the parts for all ranges inside it. -/
def Predicate.extended : Predicate → Predicate := Predicate.fold (extendWalk parts)

/-- The query with the parts for all its ranges. -/
def Query.extended : Query → Query := Query.fold (extendWalk parts)

/-! ### Equations -/

namespace Predicate

@[simp] theorem extended_and (operands : List Predicate) :
    (Predicate.and operands).extended parts = .and (operands.map (extended parts)) :=
  fold_and (extendWalk parts) operands

@[simp] theorem extended_or (operands : List Predicate) :
    (Predicate.or operands).extended parts = .or (operands.map (extended parts)) :=
  fold_or (extendWalk parts) operands

@[simp] theorem extended_not (operand : Predicate) :
    operand.not.extended parts = (operand.extended parts).not := rfl

@[simp] theorem extended_group (operand : Predicate) :
    operand.group.extended parts = (operand.extended parts).group := rfl

@[simp] theorem extended_test (test : Test) :
    (Predicate.test test).extended parts = .test test := rfl

@[simp] theorem extended_inQuery (tested : Expr) (query : Query) (negated : Bool) :
    (Predicate.inQuery tested query negated).extended parts =
      .inQuery tested (query.extended parts) negated := rfl

@[simp] theorem extended_existsIn (query : Query) (negated : Bool) :
    (Predicate.existsIn query negated).extended parts =
      .existsIn (query.extended parts) negated := rfl

end Predicate

theorem zip_map_self {α β : Type} (f : α → β) (items : List α) :
    items.zip (items.map f) = items.map fun x => (x, f x) := by
  induction items with
  | nil => rfl
  | cons first rest ih => rw [List.map_cons, List.zip_cons_cons, ih, List.map_cons]

/-- The aliases whose conditions go to the WHERE clause: those of the root and of inner joins. -/
def Select.filterNames {α : Type} (query : Select α) : List String :=
  query.root.name.value ::
    (query.joins.filter fun join => join.kind = .inner).map (·.name.value)

/-- A level with parts for its root and for each of its joins. -/
def Query.conjoined (query : Query) : Query :=
  { query with
    joins := query.joins.map fun join =>
      if join.kind = .left then { join with condition := conjoin join.condition (parts join.name.value) }
      else join
    filter := conjoin query.filter (query.filterNames.flatMap parts) }

theorem Query.conjoinLevel_eq (query : Query) :
    conjoinLevel query (parts query.root.name.value)
      (query.joins.map fun join => parts join.name.value) = query.conjoined parts := by
  have inner : ∀ joins : List (Join Predicate),
      (joins.flatMap fun join => if join.kind = .inner then parts join.name.value else []) =
        ((joins.filter fun join => join.kind = .inner).map (·.name.value)).flatMap parts := by
    intro joins
    induction joins with
    | nil => rfl
    | cons join rest ih =>
      rw [List.flatMap_cons, List.filter_cons, ih]
      by_cases kind : join.kind = .inner
      · simp only [kind, ↓reduceIte, decide_true, List.map_cons, List.flatMap_cons]
      · simp only [kind, ↓reduceIte, decide_false, Bool.false_eq_true, List.nil_append]
  simp only [conjoinLevel, conjoined, zip_map_self, List.map_map, List.flatMap_map, inner,
    Select.filterNames, List.flatMap_cons]
  rfl

theorem Query.extended_eq (query : Query) :
    query.extended parts = Query.conjoined parts (query.map (Predicate.extended parts)) := by
  rw [extended, fold_eq]
  exact conjoinLevel_eq parts _

end

/-! ### Queries that nothing is added to -/

theorem conjoin_nil (condition : Option Predicate) : conjoin condition [] = condition := rfl

theorem Select.filterNames_map {α β : Type} (f : α → β) (query : Select α) :
    (query.map f).filterNames = query.filterNames := by
  simp only [filterNames, map, List.filter_map, List.map_map, Function.comp_def, Join.map]

theorem Select.filterNames_subset {α : Type} (query : Select α) :
    query.filterNames ⊆ query.aliases.map (·.value) := by
  rw [filterNames, aliases, List.map_cons, List.map_map]
  exact List.cons_subset_cons _ (List.map_subset _ List.filter_sublist.subset)

theorem Query.conjoined_eq_self {parts : String → List Predicate} {query : Query}
    (none : ∀ name ∈ query.aliases.map (·.value), parts name = []) :
    query.conjoined parts = query := by
  have filtered : query.filterNames.flatMap parts = [] :=
    List.flatMap_eq_nil_iff.mpr fun name member => none name (query.filterNames_subset member)
  have joins : (query.joins.map fun join => if join.kind = .left
      then { join with condition := conjoin join.condition (parts join.name.value) } else join) =
      query.joins := by
    refine (List.map_congr_left fun join member => ?_).trans (List.map_id _)
    rw [none _ (query.join_mem_aliases member), conjoin_nil]
    exact ite_self _
  rw [conjoined, filtered, joins]
  rfl

theorem Query.extended_eq_self_of {parts : String → List Predicate} {query : Query}
    (none : ∀ name ∈ query.allAliases, parts name = [])
    (each : ∀ condition ∈ query.conditions, (∀ name ∈ condition.allAliases, parts name = []) →
      condition.extended parts = condition) : query.extended parts = query := by
  rw [allAliases_eq, List.forall_mem_append] at none
  have conditions : query.map (Predicate.extended parts) = query :=
    Select.map_eq_self fun condition member => each condition member fun name found =>
      none.2 name (List.mem_flatMap.mpr ⟨condition, member, found⟩)
  rw [extended_eq, conditions]
  exact conjoined_eq_self none.1

/-- A condition does not change if there are no parts for the ranges inside it. -/
theorem Predicate.extended_eq_self {parts : String → List Predicate} {predicate : Predicate}
    (none : ∀ name ∈ predicate.allAliases, parts name = []) :
    predicate.extended parts = predicate := by
  have all : ∀ operands : List Predicate, (∀ name ∈ operands.flatMap allAliases, parts name = []) →
      (∀ operand ∈ operands, (∀ name ∈ operand.allAliases, parts name = []) →
        operand.extended parts = operand) → operands.map (extended parts) = operands := by
    intro operands none each
    refine (List.map_congr_left fun operand member => ?_).trans (List.map_id _)
    exact each operand member fun name found =>
      none name (List.mem_flatMap.mpr ⟨operand, member, found⟩)
  induction predicate using Predicate.induction with
  | and operands ih =>
    rw [allAliases_and] at none
    rw [extended_and, all operands none ih]
  | or operands ih =>
    rw [allAliases_or] at none
    rw [extended_or, all operands none ih]
  | not operand ih => exact congrArg Predicate.not (ih none)
  | group operand ih => exact congrArg Predicate.group (ih none)
  | test test => rfl
  | inQuery tested query negated ih => rw [extended_inQuery, Query.extended_eq_self_of none ih]
  | existsIn query negated ih => rw [extended_existsIn, Query.extended_eq_self_of none ih]

theorem Query.extended_eq_self {parts : String → List Predicate} {query : Query}
    (none : ∀ name ∈ query.allAliases, parts name = []) : query.extended parts = query :=
  extended_eq_self_of none fun _ _ => Predicate.extended_eq_self

/-! ### Ranges that criteria are applied to -/

section

variable (scope : Scope) (isClosed : String → Bool)

/-- The aliases of a level that criteria are applied to. -/
def Select.ownReached {α : Type} (query : Select α) : List String :=
  query.root.name.value :: if scope.joins then query.joins.map (·.name.value) else []

/-- The aliases that criteria are applied to, given those in the conditions. -/
def Select.reachedFrom (query : Select (List String)) : List String :=
  query.ownReached scope ++ if scope.subqueries then query.conditions.flatten else []

/-- The walk that lists the aliases that criteria are applied to, in the order of the text. Queries
that criteria added are left out. -/
def reachWalk : PredicateFold (List String) (List String) where
  and := List.flatten
  or := List.flatten
  not := id
  group := id
  test := fun _ => []
  inQuery := fun _ query _ => query
  existsIn := fun query _ => query
  query := fun query =>
    if isClosed query.root.name.value then [] else query.reachedFrom scope

def Predicate.reached : Predicate → List String := Predicate.fold (reachWalk scope isClosed)

/-- The aliases of the query that criteria are applied to. -/
def Query.reached (query : Query) : List String :=
  (query.map (Predicate.reached scope isClosed)).reachedFrom scope

/-- The aliases of a query inside a condition that criteria are applied to. -/
def Query.reachedInside (query : Query) : List String :=
  if isClosed query.root.name.value then [] else query.reached scope isClosed

namespace Predicate

theorem reached_and (operands : List Predicate) :
    (Predicate.and operands).reached scope isClosed =
      operands.flatMap (reached scope isClosed) := by
  rw [reached, fold_and, List.flatMap_def]
  rfl

theorem reached_or (operands : List Predicate) :
    (Predicate.or operands).reached scope isClosed =
      operands.flatMap (reached scope isClosed) := by
  rw [reached, fold_or, List.flatMap_def]
  rfl

theorem fold_reachWalk (query : Query) :
    query.fold (reachWalk scope isClosed) = query.reachedInside scope isClosed :=
  Query.fold_eq (reachWalk scope isClosed) query

theorem reached_eq (predicate : Predicate) :
    predicate.reached scope isClosed =
      predicate.subqueries.flatMap (Query.reachedInside scope isClosed) := by
  rw [reached, fold_listing ⟨rfl, rfl, rfl, rfl, rfl, rfl, rfl⟩, funext (fold_reachWalk scope isClosed)]

end Predicate

theorem Select.ownReached_map {α β : Type} (f : α → β) (query : Select α) :
    (query.map f).ownReached scope = query.ownReached scope := by
  simp only [ownReached, map, List.map_map]
  rfl

theorem Query.reached_conditions (query : Query) :
    query.reached scope isClosed = query.ownReached scope ++
      if scope.subqueries then query.conditions.flatMap (Predicate.reached scope isClosed) else [] := by
  rw [reached, Select.reachedFrom, Select.ownReached_map, Select.conditions_map, List.flatMap_def]

theorem Query.reached_eq (query : Query) :
    query.reached scope isClosed = query.ownReached scope ++
      if scope.subqueries then query.subqueries.flatMap (Query.reachedInside scope isClosed)
      else [] := by
  have inside : query.conditions.flatMap (Predicate.reached scope isClosed) =
      query.subqueries.flatMap (Query.reachedInside scope isClosed) := by
    rw [subqueries, List.flatMap_assoc]
    exact List.flatMap_congr fun condition _ => condition.reached_eq scope isClosed
  rw [reached_conditions, inside]

/-- The alias of the root is reached, and others as the scope says. -/
theorem Query.mem_reached_cases {query : Query} {name : String} :
    name ∈ query.reached scope isClosed ↔ name = query.root.name.value ∨
      (scope.joins = true ∧ ∃ join ∈ query.joins, name = join.name.value) ∨
      (scope.subqueries = true ∧
        ∃ inner ∈ query.subqueries, name ∈ inner.reachedInside scope isClosed) := by
  rw [reached_eq, Select.ownReached, List.mem_append, List.mem_cons, or_assoc]
  refine or_congr_right (or_congr ?_ ?_)
  · by_cases joins : scope.joins = true
    · simp only [joins, ↓reduceIte, List.mem_map, true_and, eq_comm]
    · simp [joins]
  · by_cases subqueries : scope.subqueries = true
    · simp only [subqueries, ↓reduceIte, List.mem_flatMap, true_and]
    · simp [subqueries]

theorem Query.ownReached_sublist (query : Query) :
    (query.ownReached scope).Sublist (query.aliases.map (·.value)) := by
  rw [Select.ownReached, Select.aliases, List.map_cons, List.map_map]
  split
  · exact List.Sublist.refl _
  · exact (List.nil_sublist _).cons_cons _

/-- Criteria are applied to aliases of the query, in the order of the text. -/
theorem Query.reached_sublist (query : Query) :
    (query.reached scope isClosed).Sublist query.allAliases := by
  induction size : query.nesting using Nat.strongRecOn generalizing query with
  | ind size ih =>
    rw [reached_eq, allAliases_eq_subqueries]
    refine (query.ownReached_sublist scope).append ?_
    split
    · refine List.Sublist.flatMap_right _ fun inner among => ?_
      unfold reachedInside
      split
      · exact List.nil_sublist _
      · exact ih _ (size ▸ nesting_lt among) inner rfl
    · exact List.nil_sublist _

theorem Query.reachedInside_subset (query : Query) :
    query.reachedInside scope isClosed ⊆ query.allAliases := by
  unfold reachedInside
  split
  · exact List.nil_subset _
  · exact (query.reached_sublist scope isClosed).subset

end

/-- No alias of a query is one of its level and of a query inside, or of two queries inside. -/
theorem Query.eq_of_common_alias {query : Query} (distinct : query.allAliases.Nodup) {inner : Query}
    (member : inner ∈ query.subqueries) {name : String} (found : name ∈ inner.allAliases) :
    name ∉ query.aliases.map (·.value) ∧
      ∀ other ∈ query.subqueries, name ∈ other.allAliases → other = inner := by
  rw [allAliases_eq_subqueries, List.nodup_append] at distinct
  obtain ⟨_, inside, apart⟩ := distinct
  refine ⟨fun own => apart name own name (List.mem_flatMap.mpr ⟨inner, member, found⟩) rfl, ?_⟩
  intro other among further
  by_contra differs
  obtain ⟨_, pairs⟩ := List.pairwise_flatMap.mp inside
  have _symmetric : Std.Symm fun first second : Query =>
      ∀ x ∈ first.allAliases, ∀ y ∈ second.allAliases, x ≠ y :=
    ⟨fun _ _ apart x member y member' => (apart y member' x member).symm⟩
  exact pairs.forall among member differs name further name found rfl

namespace Constraint

variable {setting : Setting}

/-- All criteria are applied to the range of an alias. -/
def Setting.visitsTo (setting : Setting) (name : String) : List Visit :=
  setting.criteria.map fun criterion => ⟨name, criterion⟩

/-! ### Queries inside conditions -/

section

variable {nested : Query → Constrain Query} {visits : Query → List Visit}
  {parts : Naming → String → List Predicate}

/-- The queries inside a condition are extended one after the other. -/
theorem Carries.mapSubqueries (predicate : Predicate)
    (each : ∀ inner ∈ predicate.subqueries,
      Carries setting (nested inner) (visits inner) fun naming => inner.extended (parts naming)) :
    Carries setting (predicate.mapSubqueries nested) (predicate.subqueries.flatMap visits)
      fun naming => predicate.extended (parts naming) := by
  have all : ∀ operands : List Predicate,
      (∀ inner ∈ operands.flatMap Predicate.subqueries,
        Carries setting (nested inner) (visits inner) fun naming => inner.extended (parts naming)) →
      (∀ operand ∈ operands, (∀ inner ∈ operand.subqueries,
        Carries setting (nested inner) (visits inner) fun naming => inner.extended (parts naming)) →
        Carries setting (operand.mapSubqueries nested) (operand.subqueries.flatMap visits)
          fun naming => operand.extended (parts naming)) →
      Carries setting (Predicate.mapSubqueriesOfAll nested operands)
        ((operands.flatMap Predicate.subqueries).flatMap visits)
        fun naming => operands.map (Predicate.extended (parts naming)) := by
    intro operands inside each
    rw [Predicate.mapSubqueriesOfAll_eq_mapM, List.flatMap_assoc]
    refine Carries.mapM fun operand member => each operand member fun inner found => ?_
    exact inside inner (List.mem_flatMap.mpr ⟨operand, member, found⟩)
  induction predicate using Predicate.induction with
  | and operands ih =>
    rw [Predicate.subqueries_and] at each ⊢
    rw [Predicate.mapSubqueries, bind_pure_comp]
    exact ((all operands each ih).map Predicate.and).congr rfl fun naming =>
      (Predicate.extended_and _ _).symm
  | or operands ih =>
    rw [Predicate.subqueries_or] at each ⊢
    rw [Predicate.mapSubqueries, bind_pure_comp]
    exact ((all operands each ih).map Predicate.or).congr rfl fun naming =>
      (Predicate.extended_or _ _).symm
  | not operand ih =>
    rw [Predicate.mapSubqueries, bind_pure_comp]
    exact (ih each).map Predicate.not
  | group operand ih =>
    rw [Predicate.mapSubqueries, bind_pure_comp]
    exact (ih each).map Predicate.group
  | test test => exact .pure _
  | inQuery tested query negated =>
    rw [Predicate.mapSubqueries, bind_pure_comp]
    exact ((each query List.mem_cons_self).map (Predicate.inQuery tested · negated)).congr
      (List.flatMap_singleton visits query).symm fun _ => rfl
  | existsIn query negated =>
    rw [Predicate.mapSubqueries, bind_pure_comp]
    exact ((each query List.mem_cons_self).map (Predicate.existsIn · negated)).congr
      (List.flatMap_singleton visits query).symm fun _ => rfl

/-- The queries inside a query are extended one after the other. -/
theorem Carries.mapSubqueriesOf (query : Query)
    (each : ∀ inner ∈ query.subqueries,
      Carries setting (nested inner) (visits inner) fun naming => inner.extended (parts naming)) :
    Carries setting (query.mapSubqueries nested) (query.subqueries.flatMap visits)
      fun naming => query.map (Predicate.extended (parts naming)) := by
  let visitsIn (condition : Predicate) : List Visit := condition.subqueries.flatMap visits
  have optional : ∀ condition : Option Predicate, (∀ inner ∈ condition, inner ∈ query.conditions) →
      Carries setting (condition.mapM (·.mapSubqueries nested)) (condition.toList.flatMap visitsIn)
        fun naming => condition.map (Predicate.extended (parts naming)) :=
    fun _ among => .optionMapM fun condition found => .mapSubqueries condition fun inner member =>
      each inner (List.mem_flatMap.mpr ⟨condition, among condition found, member⟩)
  have joins : ∀ join ∈ query.joins, Carries setting
      (do return { join with condition := ← join.condition.mapM (·.mapSubqueries nested) })
      (join.condition.toList.flatMap visitsIn)
      fun naming => join.map (Predicate.extended (parts naming)) := by
    intro join member
    rw [bind_pure_comp]
    exact (optional join.condition fun _ => Select.mem_of_join member).map
      fun condition => { join with condition }
  have order : query.subqueries.flatMap visits =
      query.joins.flatMap (fun join => join.condition.toList.flatMap visitsIn) ++
        (query.filter.toList.flatMap visitsIn ++ (query.having.toList.flatMap visitsIn ++ [])) := by
    rw [Query.subqueries, List.flatMap_assoc, Select.flatMap_conditions, List.append_nil,
      List.append_assoc]
  refine Carries.congr ((Carries.mapM joins).bind fun joins =>
    (optional query.filter fun _ => Select.mem_of_filter).bind fun filter =>
      (optional query.having fun _ => Select.mem_of_having).bind fun having =>
        .pure { query with joins, filter, having }) order.symm fun naming => rfl

end

/-! ### Levels -/

/-- Nothing is done for the joins of a level, if the scope does not name them. -/
theorem joinParts_carries (nonempty : setting.criteria ≠ [])
    (standard : ∀ criterion ∈ setting.criteria, criterion.Standard) (name : String) :
    Carries setting (if setting.scope.joins then parts setting name else return [])
      (if setting.scope.joins then setting.visitsTo name else [])
      fun naming => if setting.scope.joins then setting.partsFor naming name else [] := by
  by_cases joins : setting.scope.joins
  · simp only [joins, ↓reduceIte]
    exact parts_carries name nonempty standard
  · simp only [joins, Bool.false_eq_true, ↓reduceIte]
    exact .pure []

theorem Setting.visits_ownReached (query : Query) :
    (query.ownReached setting.scope).flatMap setting.visitsTo =
      setting.visitsTo query.root.name.value ++ query.joins.flatMap fun join =>
        if setting.scope.joins then setting.visitsTo join.name.value else [] := by
  rw [Select.ownReached, List.flatMap_cons]
  by_cases joins : setting.scope.joins
  · simp only [joins, ↓reduceIte, List.flatMap_map]
  · simp [joins]

/-- What is added to a level comes first, and then what becomes of the queries inside it. -/
theorem constrainLevel_steps (nested : Query → Constrain Query) (query : Query) :
    constrainLevel setting nested query = (do
      let rootParts ← parts setting query.root.name.value
      let joinParts ← query.joins.mapM fun join =>
        if setting.scope.joins then parts setting join.name.value else return []
      (conjoinLevel · rootParts joinParts) <$>
        if setting.scope.subqueries then query.mapSubqueries nested else pure query) := by
  unfold constrainLevel
  by_cases subqueries : setting.scope.subqueries
  · simp only [subqueries, ↓reduceIte, map_eq_pure_bind]
  · simp only [subqueries, Bool.false_eq_true, ↓reduceIte, map_eq_pure_bind]

/-- A level is extended, and the queries inside it as the given step extends them. -/
theorem constrainLevel_carries (nonempty : setting.criteria ≠ [])
    (standard : ∀ criterion ∈ setting.criteria, criterion.Standard)
    {nested : Query → Constrain Query} {visits : Query → List Visit}
    {parts : Naming → String → List Predicate} {query : Query}
    (root : ∀ naming, parts naming query.root.name.value =
      setting.partsFor naming query.root.name.value)
    (joined : ∀ naming, ∀ join ∈ query.joins, parts naming join.name.value =
      if setting.scope.joins then setting.partsFor naming join.name.value else [])
    (inside : setting.scope.subqueries = true → ∀ inner ∈ query.subqueries,
      Carries setting (nested inner) (visits inner) fun naming => inner.extended (parts naming))
    (kept : setting.scope.subqueries = false → ∀ naming, ∀ inner ∈ query.subqueries,
      ∀ name ∈ inner.allAliases, parts naming name = []) :
    Carries setting (constrainLevel setting nested query)
      ((query.ownReached setting.scope).flatMap setting.visitsTo ++
        if setting.scope.subqueries then query.subqueries.flatMap visits else [])
      fun naming => query.extended (parts naming) := by
  have replaced : Carries setting
      (if setting.scope.subqueries then query.mapSubqueries nested else pure query)
      (if setting.scope.subqueries then query.subqueries.flatMap visits else [])
      fun naming => query.map (Predicate.extended (parts naming)) := by
    by_cases subqueries : setting.scope.subqueries
    · simp only [subqueries, ↓reduceIte]
      exact .mapSubqueriesOf query (inside subqueries)
    · simp only [subqueries, Bool.false_eq_true, ↓reduceIte]
      refine (Carries.pure query).congr rfl fun naming => (Select.map_eq_self ?_).symm
      intro condition member
      apply Predicate.extended_eq_self
      rw [Predicate.allAliases_eq, List.forall_mem_flatMap]
      exact fun inner found => kept (by simpa using subqueries) naming inner
        (List.mem_flatMap.mpr ⟨condition, member, found⟩)
  rw [constrainLevel_steps, Setting.visits_ownReached, List.append_assoc]
  refine Carries.congr ((parts_carries query.root.name.value nonempty standard).bind fun rootParts =>
    (Carries.mapM fun join _ => joinParts_carries nonempty standard join.name.value).bind
      fun joinParts => replaced.map (conjoinLevel · rootParts joinParts)) rfl fun naming => ?_
  have joins : query.joins.map (fun join =>
      if setting.scope.joins then setting.partsFor naming join.name.value else []) =
      (query.map (Predicate.extended (parts naming))).joins.map
        fun join => parts naming join.name.value := by
    simp only [Select.map, List.map_map]
    exact List.map_congr_left fun join member => (joined naming join member).symm
  rw [Query.extended_eq, ← Query.conjoinLevel_eq, ← joins, ← root]
  rfl

/-- A query inside a condition is left alone if criteria added it. -/
theorem unlessInjected_carries {step : Query → Constrain Query} {visits : List Visit}
    {query : Query} {result : Naming → Query} (among : query.root.name.value ∈ setting.model.aliases)
    (carries : setting.isClosed query.root.name.value = false →
      Carries setting (step query) visits result)
    (kept : setting.isClosed query.root.name.value = true → ∀ naming, result naming = query) :
    Carries setting (unlessInjected step query)
      (if setting.isClosed query.root.name.value then [] else visits) result := by
  have steps : ∀ before : Progress, before.Orderly setting →
      (unlessInjected step query).run before =
        (if setting.isClosed query.root.name.value then pure query else step query).run before := by
    intro before orderly
    rw [← orderly.known _ among]
    rfl
  have chosen : Carries setting
      (if setting.isClosed query.root.name.value then pure query else step query)
      (if setting.isClosed query.root.name.value then [] else visits) result := by
    by_cases closed : setting.isClosed query.root.name.value = true
    · rw [if_pos closed, if_pos closed]
      exact (Carries.pure query).congr rfl fun naming => (kept closed naming).symm
    · rw [if_neg closed, if_neg closed]
      exact carries (by simpa using closed)
  refine ⟨fun before value after orderly run => ?_, fun before orderly granted => ?_⟩
  · exact chosen.reaches before value after orderly (steps before orderly ▸ run)
  · obtain ⟨reached, run⟩ := chosen.succeeds before orderly granted
    exact ⟨reached, (steps before orderly).trans run⟩

/-- The parts are those of the criteria for all ranges of the query that are reached, and there are none
for the others. -/
structure Placed (setting : Setting) (parts : Naming → String → List Predicate) (query : Query) :
    Prop where
  distinct : query.allAliases.Nodup
  among : query.allAliases ⊆ setting.model.aliases
  reached : ∀ naming, ∀ name ∈ query.reached setting.scope setting.isClosed,
    parts naming name = setting.partsFor naming name
  others : ∀ naming, ∀ name ∈ query.allAliases,
    name ∉ query.reached setting.scope setting.isClosed → parts naming name = []

namespace Placed

variable {parts : Naming → String → List Predicate} {query inner : Query}

theorem own (placed : Placed setting parts query) (naming : Naming) :
    ∀ name ∈ query.ownReached setting.scope, parts naming name = setting.partsFor naming name := by
  intro name member
  apply placed.reached
  rw [Query.reached_eq]
  exact List.mem_append_left _ member

/-- An alias of a query inside is reached there, or nowhere. -/
theorem mem_reached_iff (placed : Placed setting parts query) (member : inner ∈ query.subqueries)
    {name : String} (found : name ∈ inner.allAliases) :
    name ∈ query.reached setting.scope setting.isClosed ↔
      setting.scope.subqueries = true ∧
        name ∈ inner.reachedInside setting.scope setting.isClosed := by
  obtain ⟨apart, only⟩ := Query.eq_of_common_alias placed.distinct member found
  rw [Query.reached_eq, List.mem_append]
  constructor
  · rintro (here | below)
    · exact absurd ((query.ownReached_sublist setting.scope).subset here) apart
    · split at below
      · rename_i subqueries
        obtain ⟨other, among, further⟩ := List.mem_flatMap.mp below
        have listed := other.reachedInside_subset _ _ further
        exact ⟨subqueries, only other among listed ▸ further⟩
      · cases below
  · rintro ⟨subqueries, further⟩
    rw [if_pos subqueries]
    exact .inr (List.mem_flatMap.mpr ⟨inner, member, further⟩)

theorem kept (placed : Placed setting parts query) (member : inner ∈ query.subqueries)
    (left : setting.scope.subqueries = false ∨ setting.isClosed inner.root.name.value = true)
    (naming : Naming) : ∀ name ∈ inner.allAliases, parts naming name = [] := by
  intro name found
  refine placed.others naming name (Query.allAliases_subset member found) fun visited => ?_
  obtain ⟨subqueries, further⟩ := (placed.mem_reached_iff member found).mp visited
  rcases left with none | closed
  · simp [none] at subqueries
  · rw [Query.reachedInside, if_pos closed] at further
    cases further

theorem inside (placed : Placed setting parts query) (member : inner ∈ query.subqueries)
    (subqueries : setting.scope.subqueries = true)
    (open' : setting.isClosed inner.root.name.value = false) : Placed setting parts inner := by
  have reached : ∀ name ∈ inner.allAliases,
      (name ∈ query.reached setting.scope setting.isClosed ↔
        name ∈ inner.reached setting.scope setting.isClosed) := by
    intro name found
    rw [placed.mem_reached_iff member found, Query.reachedInside, open']
    exact and_iff_right subqueries
  refine ⟨placed.distinct.sublist (Query.allAliases_sublist member),
    fun name found => placed.among (Query.allAliases_subset member found),
    fun naming name visited => ?_, fun naming name found unvisited => ?_⟩
  · exact placed.reached naming name ((reached name ((inner.reached_sublist _ _).subset visited)).mpr visited)
  · exact placed.others naming name (Query.allAliases_subset member found)
      (mt (reached name found).mp unvisited)

/-- The alias of a join is not reached if the scope does not name joins. -/
theorem join_not_reached (placed : Placed setting parts query) (joins : ¬setting.scope.joins = true)
    {join : Join Predicate} (member : join ∈ query.joins) :
    join.name.value ∉ query.reached setting.scope setting.isClosed := by
  have named : join.name.value ∈ query.joins.map (·.name.value) := List.mem_map_of_mem member
  have level : query.aliases.map (·.value) =
      query.root.name.value :: query.joins.map (·.name.value) := by
    simp [Select.aliases]
  rw [Query.reached_eq, Select.ownReached, if_neg joins, List.mem_append, List.mem_singleton]
  rintro (root | below)
  · have apart := placed.distinct
    rw [Query.allAliases_eq, level] at apart
    exact (List.nodup_cons.mp (List.nodup_append.mp apart).1).1 (root ▸ named)
  · split at below
    · obtain ⟨inner, among, found⟩ := List.mem_flatMap.mp below
      have listed := inner.reachedInside_subset _ _ found
      refine (Query.eq_of_common_alias placed.distinct among listed).1 ?_
      rw [level]
      exact List.mem_cons_of_mem _ named
    · cases below

/-- One level is extended if the queries inside it are. -/
theorem carries (placed : Placed setting parts query) (nonempty : setting.criteria ≠ [])
    (standard : ∀ criterion ∈ setting.criteria, criterion.Standard)
    {nested : Query → Constrain Query}
    (inside : setting.scope.subqueries = true → ∀ inner ∈ query.subqueries,
      Carries setting (nested inner)
        ((inner.reachedInside setting.scope setting.isClosed).flatMap setting.visitsTo)
        fun naming => inner.extended (parts naming)) :
    Carries setting (constrainLevel setting nested query)
      ((query.reached setting.scope setting.isClosed).flatMap setting.visitsTo)
      fun naming => query.extended (parts naming) := by
  have joined : ∀ naming, ∀ join ∈ query.joins, parts naming join.name.value =
      if setting.scope.joins then setting.partsFor naming join.name.value else [] := by
    intro naming join member
    split
    · rename_i joins
      refine placed.own naming _ (List.mem_cons_of_mem _ ?_)
      rw [if_pos joins]
      exact List.mem_map_of_mem member
    · rename_i joins
      exact placed.others naming _ (query.join_mem_allAliases member)
        (placed.join_not_reached joins member)
  rw [Query.reached_eq, List.flatMap_append]
  refine (constrainLevel_carries nonempty standard
    (fun naming => placed.own naming _ List.mem_cons_self) joined inside
    fun none naming inner member => placed.kept member (.inl none) naming).congr ?_ fun _ => rfl
  split
  · rw [List.flatMap_assoc]
  · rfl

end Placed

/-- Criteria are applied to all ranges of a query that are reached, and to no others. -/
theorem constrainLevels_carries {parts : Naming → String → List Predicate}
    (nonempty : setting.criteria ≠ [])
    (standard : ∀ criterion ∈ setting.criteria, criterion.Standard) (depth : Nat) (query : Query)
    (within : query.nesting ≤ depth) (placed : Placed setting parts query) :
    Carries setting (constrainLevels setting depth query)
      ((query.reached setting.scope setting.isClosed).flatMap setting.visitsTo)
      fun naming => query.extended (parts naming) := by
  induction depth generalizing query with
  | zero =>
    refine placed.carries nonempty standard fun _ inner member => ?_
    have := Query.nesting_lt member
    omega
  | succ depth ih =>
    refine placed.carries nonempty standard fun subqueries inner member => ?_
    have deeper : inner.nesting ≤ depth := by
      have := Query.nesting_lt member
      omega
    refine (unlessInjected_carries (placed.among (Query.allAliases_subset member
      inner.root_mem_allAliases)) (fun open' => ih inner deeper
        (placed.inside member subqueries open')) fun closed naming =>
          Query.extended_eq_self (placed.kept member (.inr closed) naming)).congr ?_ fun _ => rfl
    unfold Query.reachedInside
    split <;> rfl

end Constraint

end QueryGuard
