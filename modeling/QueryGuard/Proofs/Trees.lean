import Mathlib.Data.List.Basic
import QueryGuard.Syntax.Parts
/-!
The leaves of a call, and the conditions of a query: replacing them, how deeply queries are nested in them,
and which aliases these declare.
-/

set_option autoImplicit false

namespace QueryGuard

/-- What is picked from the leaves of a call is picked from those of its arguments. -/
theorem Expr.filterMap_leaves_call {α : Type} (pick : Leaf → Option α) (name : Name)
    (arguments : List Expr) (span : Span) : (Expr.call name arguments span).leaves.filterMap pick =
      arguments.flatMap fun argument => argument.leaves.filterMap pick := by
  rw [leaves, fold_call, List.filterMap_flatten, List.map_map, List.flatMap_def]
  rfl

theorem Join.map_map {α β γ : Type} (f : α → β) (g : β → γ) (join : Join α) :
    (join.map f).map g = join.map (g ∘ f) := by
  simp only [Join.map, Option.map_map]

theorem Select.map_map {α β γ : Type} (f : α → β) (g : β → γ) (query : Select α) :
    (query.map f).map g = query.map (g ∘ f) := by
  have joined : (fun join : Join α => join.map (g ∘ f)) = (·.map g) ∘ (·.map f) :=
    funext fun join => (join.map_map f g).symm
  simp only [Select.map, List.map_map, Option.map_map, joined]

namespace Select

variable {Condition : Type} {query : Select Condition} {condition : Condition}

theorem mem_of_join {join : Join Condition} (member : join ∈ query.joins)
    (found : condition ∈ join.condition) : condition ∈ query.conditions :=
  List.mem_append_left _ (List.mem_append_left _ (List.mem_filterMap.mpr ⟨join, member, found⟩))

theorem mem_of_filter (found : condition ∈ query.filter) : condition ∈ query.conditions :=
  List.mem_append_left _ (List.mem_append_right _ (Option.mem_toList.mpr found))

theorem mem_of_having (found : condition ∈ query.having) : condition ∈ query.conditions :=
  List.mem_append_right _ (Option.mem_toList.mpr found)

end Select

theorem Join.map_congr {α β : Type} {f g : α → β} {join : Join α}
    (same : ∀ condition ∈ join.condition, f condition = g condition) :
    join.map f = join.map g := by
  obtain ⟨kind, target, name, condition, span⟩ := join
  cases condition with
  | none => rfl
  | some found => simp only [Join.map, Option.map_some, same found rfl]

/-- Only the conditions of the query matter for how they are replaced. -/
theorem Select.map_congr {α β : Type} {f g : α → β} {query : Select α}
    (same : ∀ condition ∈ query.conditions, f condition = g condition) :
    query.map f = query.map g := by
  have joins : query.joins.map (·.map f) = query.joins.map (·.map g) :=
    List.map_congr_left fun join member => Join.map_congr fun condition found =>
      same condition (Select.mem_of_join member found)
  have filter : query.filter.map f = query.filter.map g := by
    cases condition : query.filter with
    | none => rfl
    | some found => rw [Option.map_some, same found (mem_of_filter condition), Option.map_some]
  have having : query.having.map f = query.having.map g := by
    cases condition : query.having with
    | none => rfl
    | some found => rw [Option.map_some, same found (mem_of_having condition), Option.map_some]
  rw [Select.map, joins, filter, having, Select.map]

theorem Join.map_id {α : Type} (join : Join α) : join.map id = join := by
  simp only [Join.map, Option.map_id_fun, id_eq]

theorem Select.map_id {α : Type} (query : Select α) : query.map id = query := by
  have joined : query.joins.map (·.map id) = query.joins :=
    (List.map_congr_left fun join _ => join.map_id).trans (List.map_id _)
  simp only [Select.map, joined, Option.map_id_fun, id_eq]

theorem Select.map_eq_self {α : Type} {f : α → α} {query : Select α}
    (each : ∀ condition ∈ query.conditions, f condition = condition) : query.map f = query :=
  (Select.map_congr (g := id) each).trans query.map_id

theorem Select.conditions_map {α β : Type} (f : α → β) (query : Select α) :
    (query.map f).conditions = query.conditions.map f := by
  have joined : (query.joins.map (·.map f)).filterMap (·.condition) =
      (query.joins.filterMap (·.condition)).map f := by
    rw [List.filterMap_map, List.map_filterMap]
    rfl
  simp only [Select.conditions, Select.map, joined, List.map_append]
  cases query.filter <;> cases query.having <;> simp

theorem Select.flatMap_conditions {α β : Type} (f : α → List β) (query : Select α) :
    query.conditions.flatMap f =
      (query.joins.flatMap fun join => join.condition.toList.flatMap f) ++
        query.filter.toList.flatMap f ++ query.having.toList.flatMap f := by
  have joined : ∀ joins : List (Join α), (joins.filterMap (·.condition)).flatMap f =
      joins.flatMap fun join => join.condition.toList.flatMap f := by
    intro joins
    induction joins with
    | nil => rfl
    | cons join rest ih => cases condition : join.condition <;> simp [condition, ih]
  rw [conditions, List.flatMap_append, List.flatMap_append, joined]

theorem Select.join_mem_aliases {Condition : Type} (query : Select Condition) {join : Join Condition}
    (member : join ∈ query.joins) : join.name.value ∈ query.aliases.map (·.value) := by
  rw [aliases, List.map_cons, List.map_map]
  exact List.mem_cons_of_mem _ (List.mem_map_of_mem member)

/-! ### Nesting -/

theorem le_foldl_max {number : Nat} {numbers : List Nat} (start : Nat)
    (found : number = start ∨ number ∈ numbers) : number ≤ numbers.foldl max start := by
  induction numbers generalizing number start with
  | nil => simpa using found.elim Nat.le_of_eq (by simp)
  | cons first rest ih =>
    rw [List.foldl_cons]
    rcases found with rfl | found
    · exact Nat.le_trans (Nat.le_max_left _ first) (ih _ (.inl rfl))
    · rcases List.mem_cons.mp found with rfl | found
      · exact Nat.le_trans (Nat.le_max_right start _) (ih _ (.inl rfl))
      · exact ih _ (.inr found)

theorem foldl_max_le {bound start : Nat} {numbers : List Nat} (first : start ≤ bound)
    (each : ∀ number ∈ numbers, number ≤ bound) : numbers.foldl max start ≤ bound := by
  induction numbers generalizing start with
  | nil => exact first
  | cons number rest ih =>
    rw [List.foldl_cons]
    exact ih (Nat.max_le.mpr ⟨first, each number List.mem_cons_self⟩) fun other found =>
      each other (List.mem_cons_of_mem _ found)

namespace Predicate

theorem nesting_and (operands : List Predicate) :
    (Predicate.and operands).nesting = (operands.map nesting).foldl max 0 := by
  simp only [nesting, fold_and, nestingWalk]

theorem nesting_or (operands : List Predicate) :
    (Predicate.or operands).nesting = (operands.map nesting).foldl max 0 := by
  simp only [nesting, fold_or, nestingWalk]

theorem nesting_le_and {operand : Predicate} {operands : List Predicate}
    (found : operand ∈ operands) : operand.nesting ≤ (Predicate.and operands).nesting := by
  rw [nesting_and]
  exact le_foldl_max 0 (.inr (List.mem_map_of_mem found))

theorem nesting_le_or {operand : Predicate} {operands : List Predicate}
    (found : operand ∈ operands) : operand.nesting ≤ (Predicate.or operands).nesting := by
  rw [nesting_or]
  exact le_foldl_max 0 (.inr (List.mem_map_of_mem found))

theorem nesting_le_allOf {operand : Predicate} {operands : List Predicate}
    (member : operand ∈ operands) : operand.nesting ≤ (allOf operands).nesting := by
  rcases operands with _ | ⟨first, _ | ⟨second, rest⟩⟩
  · contradiction
  · rw [List.mem_singleton.mp member]
    exact Nat.le_refl _
  · rw [allOf]
    · exact nesting_le_and member
    · simp

theorem nesting_le_anyOf {operand : Predicate} {operands : List Predicate}
    (member : operand ∈ operands) : operand.nesting ≤ (anyOf operands).nesting := by
  rcases operands with _ | ⟨first, _ | ⟨second, rest⟩⟩
  · contradiction
  · rw [List.mem_singleton.mp member]
    exact Nat.le_refl _
  · rw [anyOf]
    · exact nesting_le_or member
    · simp

theorem nesting_allOf_le {operands : List Predicate} {n : Nat}
    (each : ∀ operand ∈ operands, operand.nesting ≤ n) : (allOf operands).nesting ≤ n := by
  rcases operands with _ | ⟨first, _ | ⟨second, rest⟩⟩
  · exact Nat.zero_le n
  · exact each first List.mem_cons_self
  · rw [allOf, nesting_and]
    · exact foldl_max_le (Nat.zero_le n) (by simpa using each)
    · simp

theorem nesting_anyOf_le {operands : List Predicate} {n : Nat}
    (each : ∀ operand ∈ operands, operand.nesting ≤ n) : (anyOf operands).nesting ≤ n := by
  rcases operands with _ | ⟨first, _ | ⟨second, rest⟩⟩
  · exact Nat.zero_le n
  · exact each first List.mem_cons_self
  · rw [anyOf, nesting_or]
    · exact foldl_max_le (Nat.zero_le n) (by simpa using each)
    · simp

end Predicate

theorem Query.nesting_eq (query : Query) :
    query.nesting = (query.conditions.map Predicate.nesting).foldl max 0 := by
  rw [Query.nesting, Query.fold_eq, ← Select.conditions_map]
  rfl

theorem Query.nesting_le {query : Query} {condition : Predicate}
    (member : condition ∈ query.conditions) : condition.nesting ≤ query.nesting := by
  rw [Query.nesting_eq]
  exact le_foldl_max 0 (.inr (List.mem_map_of_mem member))

theorem Query.nesting_map_le {query : Query} {f : Predicate → Predicate}
    (each : ∀ condition ∈ query.conditions, (f condition).nesting ≤ condition.nesting) :
    Query.nesting (query.map f) ≤ query.nesting := by
  rw [Query.nesting_eq, Select.conditions_map]
  apply foldl_max_le (Nat.zero_le _)
  intro number found
  rw [List.map_map] at found
  obtain ⟨condition, member, rfl⟩ := List.mem_map.mp found
  exact Nat.le_trans (each condition member) (Query.nesting_le member)

/-! ### Queries inside others -/

theorem subset_flatMap {α β : Type} {f : α → List β} {items : List α} {item : α}
    (member : item ∈ items) : f item ⊆ items.flatMap f :=
  fun _ found => List.mem_flatMap_of_mem member found

namespace Predicate

@[simp] theorem subqueries_and (operands : List Predicate) :
    (Predicate.and operands).subqueries = operands.flatMap subqueries := by
  rw [subqueries, subqueriesOfAll_eq_flatMap]

@[simp] theorem subqueries_or (operands : List Predicate) :
    (Predicate.or operands).subqueries = operands.flatMap subqueries := by
  rw [subqueries, subqueriesOfAll_eq_flatMap]

/-- What a conjunction has of each kind, its operands have together. -/
theorem flatMap_allOf {β : Type} {list : Predicate → List β}
    (and : ∀ operands, list (.and operands) = operands.flatMap list) (operands : List Predicate) :
    list (allOf operands) = operands.flatMap list := by
  rcases operands with _ | ⟨first, _ | ⟨second, rest⟩⟩
  · exact and []
  · exact (List.flatMap_singleton list first).symm
  · exact and _

theorem flatMap_anyOf {β : Type} {list : Predicate → List β}
    (or : ∀ operands, list (.or operands) = operands.flatMap list) (operands : List Predicate) :
    list (anyOf operands) = operands.flatMap list := by
  rcases operands with _ | ⟨first, _ | ⟨second, rest⟩⟩
  · exact or []
  · exact (List.flatMap_singleton list first).symm
  · exact or _

/-- What holds of the condition that asks a query, and goes over to the condition around, holds of every
condition that has the query inside. -/
theorem subqueries_induction {inner : Query}
    {motive : (predicate : Predicate) → inner ∈ predicate.subqueries → Prop}
    (and : ∀ (operands : List Predicate) (operand : Predicate) (among : operand ∈ operands)
      (found : inner ∈ operand.subqueries), motive operand found → motive (.and operands)
        ((subqueries_and operands).symm ▸ List.mem_flatMap_of_mem among found))
    (or : ∀ (operands : List Predicate) (operand : Predicate) (among : operand ∈ operands)
      (found : inner ∈ operand.subqueries), motive operand found → motive (.or operands)
        ((subqueries_or operands).symm ▸ List.mem_flatMap_of_mem among found))
    (not : ∀ (operand : Predicate) (found : inner ∈ operand.subqueries),
      motive operand found → motive (.not operand) found)
    (group : ∀ (operand : Predicate) (found : inner ∈ operand.subqueries),
      motive operand found → motive (.group operand) found)
    (inQuery : ∀ (tested : Expr) (negated : Bool),
      motive (.inQuery tested inner negated) List.mem_cons_self)
    (existsIn : ∀ negated : Bool, motive (.existsIn inner negated) List.mem_cons_self)
    {predicate : Predicate} (member : inner ∈ predicate.subqueries) : motive predicate member := by
  induction predicate using Predicate.induction with
  | and operands ih =>
    obtain ⟨operand, among, found⟩ := List.mem_flatMap.mp (subqueries_and operands ▸ member)
    exact and operands operand among found (ih operand among found)
  | or operands ih =>
    obtain ⟨operand, among, found⟩ := List.mem_flatMap.mp (subqueries_or operands ▸ member)
    exact or operands operand among found (ih operand among found)
  | not operand ih => exact not operand member (ih member)
  | group operand ih => exact group operand member (ih member)
  | test test => cases member
  | inQuery tested query negated =>
    obtain rfl := List.mem_singleton.mp member
    exact inQuery tested negated
  | existsIn query negated =>
    obtain rfl := List.mem_singleton.mp member
    exact existsIn negated

/-- A query inside a condition is nested less deeply. -/
theorem nesting_lt {predicate : Predicate} {inner : Query} (member : inner ∈ predicate.subqueries) :
    inner.nesting < predicate.nesting := by
  induction member using subqueries_induction with
  | and _ _ among _ ih => exact Nat.lt_of_lt_of_le ih (nesting_le_and among)
  | or _ _ among _ ih => exact Nat.lt_of_lt_of_le ih (nesting_le_or among)
  | not _ _ ih => exact ih
  | group _ _ ih => exact ih
  | inQuery _ _ => exact Nat.lt_succ_self _
  | existsIn _ => exact Nat.lt_succ_self _

/-- Of a condition the walk lists what it lists of the queries inside, one after the other. -/
structure Listing {α : Type} (walk : PredicateFold (List α) (List α)) : Prop where
  and : walk.and = List.flatten
  or : walk.or = List.flatten
  not : walk.not = id
  group : walk.group = id
  test : walk.test = fun _ => []
  inQuery : walk.inQuery = fun _ query _ => query
  existsIn : walk.existsIn = fun query _ => query

theorem fold_listing {α : Type} {walk : PredicateFold (List α) (List α)} (listing : Listing walk)
    (predicate : Predicate) : predicate.fold walk = predicate.subqueries.flatMap (Query.fold walk) := by
  have all : ∀ operands : List Predicate, (∀ operand ∈ operands,
      operand.fold walk = operand.subqueries.flatMap (Query.fold walk)) →
      (operands.map (fold walk)).flatten =
        (operands.flatMap subqueries).flatMap (Query.fold walk) := by
    intro operands each
    rw [List.flatMap_assoc, List.flatMap_def]
    exact congrArg List.flatten (List.map_congr_left each)
  induction predicate using Predicate.induction with
  | and operands ih => rw [fold_and, listing.and, subqueries_and, all operands ih]
  | or operands ih => rw [fold_or, listing.or, subqueries_or, all operands ih]
  | not operand ih =>
    rw [fold_not, listing.not]
    exact ih
  | group operand ih =>
    rw [fold_group, listing.group]
    exact ih
  | test test => exact congrFun listing.test test
  | inQuery tested query negated =>
    rw [fold_inQuery, listing.inQuery]
    exact (List.append_nil _).symm
  | existsIn query negated =>
    rw [fold_existsIn, listing.existsIn]
    exact (List.append_nil _).symm

/-- The aliases that the queries inside a condition declare. -/
def allAliases : Predicate → List String := fold Query.aliasWalk

theorem allAliases_and (operands : List Predicate) :
    (Predicate.and operands).allAliases = operands.flatMap allAliases := by
  rw [allAliases, fold_and, List.flatMap_def]
  rfl

theorem allAliases_or (operands : List Predicate) :
    (Predicate.or operands).allAliases = operands.flatMap allAliases := by
  rw [allAliases, fold_or, List.flatMap_def]
  rfl

theorem allAliases_eq (predicate : Predicate) :
    predicate.allAliases = predicate.subqueries.flatMap Query.allAliases :=
  fold_listing ⟨rfl, rfl, rfl, rfl, rfl, rfl, rfl⟩ predicate

/-- A query inside a condition declares some of the condition's aliases, in their order. -/
theorem allAliases_sublist {predicate : Predicate} {inner : Query}
    (member : inner ∈ predicate.subqueries) :
    inner.allAliases.Sublist predicate.allAliases := by
  rw [allAliases_eq, List.flatMap_def]
  exact List.sublist_flatten_of_mem (List.mem_map_of_mem member)

end Predicate

namespace Query

theorem nesting_lt {query inner : Query} (member : inner ∈ query.subqueries) :
    inner.nesting < query.nesting := by
  obtain ⟨condition, among, found⟩ := List.mem_flatMap.mp member
  exact Nat.lt_of_lt_of_le (Predicate.nesting_lt found) (Query.nesting_le among)

theorem allAliases_eq (query : Query) :
    query.allAliases = query.aliases.map (·.value) ++
      query.conditions.flatMap Predicate.allAliases := by
  rw [allAliases, Query.fold_eq]
  change (query.map _).aliases.map (·.value) ++ (query.map _).conditions.flatten = _
  rw [Select.conditions_map, List.flatMap_def]
  simp only [Select.aliases, Select.map, List.map_map]
  rfl

theorem allAliases_eq_subqueries (query : Query) :
    query.allAliases =
      query.aliases.map (·.value) ++ query.subqueries.flatMap allAliases := by
  rw [allAliases_eq, subqueries, List.flatMap_assoc]
  exact congrArg (_ ++ ·) (List.flatMap_congr fun condition _ => condition.allAliases_eq)

theorem allAliases_sublist {query inner : Query} (member : inner ∈ query.subqueries) :
    inner.allAliases.Sublist query.allAliases := by
  rw [allAliases_eq_subqueries query, List.flatMap_def]
  exact (List.sublist_flatten_of_mem (List.mem_map_of_mem member)).trans
    (List.sublist_append_right _ _)

theorem allAliases_subset {query inner : Query} (member : inner ∈ query.subqueries) :
    inner.allAliases ⊆ query.allAliases :=
  (allAliases_sublist member).subset

theorem aliases_subset (query : Query) : query.aliases.map (·.value) ⊆ query.allAliases := by
  rw [allAliases_eq]
  exact List.subset_append_left _ _

theorem root_mem_allAliases (query : Query) : query.root.name.value ∈ query.allAliases :=
  query.aliases_subset List.mem_cons_self

theorem join_mem_allAliases (query : Query) {join : Join Predicate} (member : join ∈ query.joins) :
    join.name.value ∈ query.allAliases :=
  query.aliases_subset (query.join_mem_aliases member)

end Query

end QueryGuard
