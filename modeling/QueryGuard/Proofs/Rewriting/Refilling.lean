import QueryGuard.Proofs.Rewriting.Replacement
/-!
Replacing the queries inside a tree is taking the step for each query of its list, one after the other, and
then putting the results in the places of these.
-/

set_option autoImplicit false

namespace QueryGuard

/-! ### Steps for the elements of a list -/

section

variable {m : Type → Type} [Monad m] [LawfulMonad m] {α β γ δ ε : Type} {step : α → m β}

/-- There are as many results as elements. -/
theorem mapM_bind_congr {items : List α} {next next' : List β → m γ}
    (same : ∀ results, results.length = items.length → next results = next' results) :
    items.mapM step >>= next = items.mapM step >>= next' := by
  induction items generalizing next next' with
  | nil => rw [List.mapM_nil, pure_bind, pure_bind, same [] rfl]
  | cons first rest ih =>
    rw [List.mapM_cons, bind_assoc, bind_assoc]
    refine bind_congr fun value => ?_
    rw [bind_assoc, bind_assoc]
    refine ih fun values length => ?_
    rw [pure_bind, pure_bind]
    exact same (value :: values) (congrArg Nat.succ length)

theorem map_mapM_congr {items : List α} {f g : List β → γ}
    (same : ∀ results, results.length = items.length → f results = g results) :
    f <$> items.mapM step = g <$> items.mapM step := by
  rw [map_eq_pure_bind, map_eq_pure_bind]
  exact mapM_bind_congr fun results length => congrArg pure (same results length)

/-- What is made of the results for two lists is made of those for both, divided where the first ends. -/
theorem map_mapM_append (first rest : List α) (f : List β → γ) (g : List β → δ) (both : γ → δ → ε) :
    (do
      let x ← f <$> first.mapM step
      let y ← g <$> rest.mapM step
      return both x y) =
      (fun results => both (f (results.take first.length)) (g (results.drop first.length))) <$>
        (first ++ rest).mapM step := by
  rw [List.mapM_append]
  simp only [map_bind, map_pure, bind_map_left]
  refine mapM_bind_congr fun results length => ?_
  rw [← length]
  simp only [List.take_left, List.drop_left]

/-- Each element gets as many of the values as it has parts, from left to right. -/
def refillEach (parts : α → List γ) (fill : α → List γ → β) : List α → List γ → List β
  | [], _ => []
  | first :: rest, values =>
      fill first (values.take (parts first).length) ::
        refillEach parts fill rest (values.drop (parts first).length)

variable {parts : α → List γ} {fill : α → List γ → β} {items : List α}

/-- Steps for all elements are steps for all their parts, if each is steps for its own. -/
theorem mapM_eq_refillEach {inner : γ → m γ}
    (each : ∀ x ∈ items, step x = fill x <$> (parts x).mapM inner) :
    items.mapM step = refillEach parts fill items <$> (items.flatMap parts).mapM inner := by
  induction items with
  | nil =>
    rw [List.mapM_nil, List.flatMap_nil, List.mapM_nil, map_pure]
    rfl
  | cons first rest ih =>
    obtain ⟨here, others⟩ := List.forall_mem_cons.mp each
    rw [List.mapM_cons, here, ih others, List.flatMap_cons]
    exact map_mapM_append _ _ _ _ _

/-- What is given back to each element is what it had. -/
theorem refillEach_parts {fill : α → List γ → α} (each : ∀ x ∈ items, fill x (parts x) = x) :
    refillEach parts fill items (items.flatMap parts) = items := by
  induction items with
  | nil => rfl
  | cons first rest ih =>
    obtain ⟨here, others⟩ := List.forall_mem_cons.mp each
    rw [List.flatMap_cons, refillEach, List.take_left, List.drop_left, here, ih others]

/-- The values are in the elements that they were given to. -/
theorem flatMap_refillEach {parts' : β → List γ} {values : List γ}
    (each : ∀ x ∈ items, ∀ values : List γ, values.length = (parts x).length →
      parts' (fill x values) = values)
    (length : values.length = (items.flatMap parts).length) :
    (refillEach parts fill items values).flatMap parts' = values := by
  induction items generalizing values with
  | nil => exact (List.length_eq_zero_iff.mp length).symm
  | cons first rest ih =>
    obtain ⟨here, others⟩ := List.forall_mem_cons.mp each
    rw [List.flatMap_cons, List.length_append] at length
    rw [refillEach, List.flatMap_cons, here, ih others, List.take_append_drop]
    · rw [List.length_drop, length, Nat.add_sub_cancel_left]
    · rw [List.length_take, length]
      exact Nat.min_eq_left (Nat.le_add_right _ _)

end

/-! ### Conditions -/

namespace Predicate

mutual

/-- The condition with other queries in the places of those inside it, from left to right. -/
def refill : Predicate → List Query → Predicate
  | .and operands, queries => .and (refillAll operands queries)
  | .or operands, queries => .or (refillAll operands queries)
  | .not operand, queries => .not (operand.refill queries)
  | .group operand, queries => .group (operand.refill queries)
  | .test leaf, _ => .test leaf
  | .inQuery tested query negated, queries => .inQuery tested (queries.headD query) negated
  | .existsIn query negated, queries => .existsIn (queries.headD query) negated

def refillAll : List Predicate → List Query → List Predicate
  | [], _ => []
  | predicate :: rest, queries =>
      predicate.refill (queries.take predicate.subqueries.length) ::
        refillAll rest (queries.drop predicate.subqueries.length)

end

theorem refillAll_eq_refillEach (predicates : List Predicate) (queries : List Query) :
    refillAll predicates queries = refillEach subqueries refill predicates queries := by
  induction predicates generalizing queries with
  | nil => rw [refillAll, refillEach]
  | cons predicate rest ih => rw [refillAll, refillEach, ih]

@[simp] theorem refill_and (operands : List Predicate) (queries : List Query) :
    (Predicate.and operands).refill queries = .and (refillEach subqueries refill operands queries) := by
  rw [refill, refillAll_eq_refillEach]

@[simp] theorem refill_or (operands : List Predicate) (queries : List Query) :
    (Predicate.or operands).refill queries = .or (refillEach subqueries refill operands queries) := by
  rw [refill, refillAll_eq_refillEach]

theorem refill_subqueries (predicate : Predicate) :
    predicate.refill predicate.subqueries = predicate := by
  induction predicate using Predicate.induction with
  | and operands ih => rw [subqueries_and, refill_and, refillEach_parts ih]
  | or operands ih => rw [subqueries_or, refill_or, refillEach_parts ih]
  | not operand ih => exact congrArg Predicate.not ih
  | group operand ih => exact congrArg Predicate.group ih
  | test test => rfl
  | inQuery tested query negated => rfl
  | existsIn query negated => rfl

theorem subqueries_refill (predicate : Predicate) {queries : List Query}
    (length : queries.length = predicate.subqueries.length) :
    (predicate.refill queries).subqueries = queries := by
  induction predicate using Predicate.induction generalizing queries with
  | and operands ih =>
    rw [subqueries_and] at length
    rw [refill_and, subqueries_and]
    exact flatMap_refillEach (fun operand member _ => ih operand member) length
  | or operands ih =>
    rw [subqueries_or] at length
    rw [refill_or, subqueries_or]
    exact flatMap_refillEach (fun operand member _ => ih operand member) length
  | not operand ih => exact ih length
  | group operand ih => exact ih length
  | test test => exact (List.length_eq_zero_iff.mp length).symm
  | inQuery tested query negated =>
    obtain ⟨only, rfl⟩ := List.length_eq_one_iff.mp length
    rfl
  | existsIn query negated =>
    obtain ⟨only, rfl⟩ := List.length_eq_one_iff.mp length
    rfl

section

variable {m : Type → Type} [Monad m] [LawfulMonad m] (f : Query → m Query)

theorem mapSubqueries_eq (predicate : Predicate) :
    predicate.mapSubqueries f = predicate.refill <$> predicate.subqueries.mapM f := by
  have all : ∀ operands : List Predicate, (∀ operand ∈ operands,
      operand.mapSubqueries f = operand.refill <$> operand.subqueries.mapM f) →
      mapSubqueriesOfAll f operands =
        refillEach subqueries refill operands <$> (operands.flatMap subqueries).mapM f := by
    intro operands each
    rw [mapSubqueriesOfAll_eq_mapM]
    exact mapM_eq_refillEach each
  induction predicate using Predicate.induction with
  | and operands ih =>
    rw [mapSubqueries, all operands ih, subqueries_and, bind_pure_comp, Functor.map_map]
    exact congrArg (· <$> _) (funext fun queries => (refill_and operands queries).symm)
  | or operands ih =>
    rw [mapSubqueries, all operands ih, subqueries_or, bind_pure_comp, Functor.map_map]
    exact congrArg (· <$> _) (funext fun queries => (refill_or operands queries).symm)
  | not operand ih =>
    rw [mapSubqueries, ih, bind_pure_comp, Functor.map_map]
    rfl
  | group operand ih =>
    rw [mapSubqueries, ih, bind_pure_comp, Functor.map_map]
    rfl
  | test test =>
    rw [mapSubqueries, subqueries, List.mapM_nil, map_pure]
    rfl
  | inQuery tested query negated =>
    rw [mapSubqueries, subqueries]
    simp [refill]
  | existsIn query negated =>
    rw [mapSubqueries, subqueries]
    simp [refill]

/-- Where there is no query inside, nothing is replaced. -/
theorem mapSubqueries_of_nil {predicate : Predicate} (none : predicate.subqueries = []) :
    predicate.mapSubqueries f = pure predicate := by
  have same := predicate.refill_subqueries
  rw [none] at same
  rw [mapSubqueries_eq, none, List.mapM_nil, map_pure, same]

end

end Predicate

/-! ### Queries -/

/-- The queries inside the condition of a join. -/
def Join.subqueries (join : Join Predicate) : List Query :=
  join.condition.toList.flatMap Predicate.subqueries

/-- The join with other queries in the places of those inside its condition. -/
def Join.refill (join : Join Predicate) (queries : List Query) : Join Predicate :=
  { join with condition := join.condition.map (·.refill queries) }

namespace Query

/-- The query with other queries in the places of those inside its conditions, in the order of the text. -/
def refill (query : Query) (queries : List Query) : Query :=
  let inJoins := (query.joins.flatMap Join.subqueries).length
  let inFilter := (query.filter.toList.flatMap Predicate.subqueries).length
  { query with
    joins := refillEach Join.subqueries Join.refill query.joins (queries.take inJoins)
    filter := query.filter.map (·.refill ((queries.drop inJoins).take inFilter))
    having := query.having.map (·.refill ((queries.drop inJoins).drop inFilter)) }

theorem subqueries_eq (query : Query) :
    query.subqueries = query.joins.flatMap Join.subqueries ++
      (query.filter.toList.flatMap Predicate.subqueries ++
        query.having.toList.flatMap Predicate.subqueries) := by
  rw [subqueries, Select.flatMap_conditions, List.append_assoc]
  rfl

section

variable {condition : Option Predicate}

theorem refill_optional : condition.map (·.refill (condition.toList.flatMap Predicate.subqueries)) =
    condition := by
  cases condition with
  | none => rfl
  | some inner =>
    rw [Option.toList_some, List.flatMap_singleton, Option.map_some, inner.refill_subqueries]

theorem optional_refill {queries : List Query}
    (length : queries.length = (condition.toList.flatMap Predicate.subqueries).length) :
    (condition.map (·.refill queries)).toList.flatMap Predicate.subqueries = queries := by
  cases condition with
  | none => exact (List.length_eq_zero_iff.mp length).symm
  | some inner =>
    rw [Option.toList_some, List.flatMap_singleton] at length
    rw [Option.map_some, Option.toList_some, List.flatMap_singleton, inner.subqueries_refill length]

end

theorem refill_subqueries (query : Query) : query.refill query.subqueries = query := by
  have joins : refillEach Join.subqueries Join.refill query.joins
      (query.joins.flatMap Join.subqueries) = query.joins :=
    refillEach_parts fun join _ => by rw [Join.refill, Join.subqueries, refill_optional]
  rw [subqueries_eq, refill]
  simp only [List.take_left, List.drop_left, joins, refill_optional]

theorem subqueries_refill (query : Query) {queries : List Query}
    (length : queries.length = query.subqueries.length) :
    (query.refill queries).subqueries = queries := by
  rw [subqueries_eq, List.length_append, List.length_append] at length
  have joins : ∀ {values : List Query}, values.length = (query.joins.flatMap Join.subqueries).length →
      (refillEach Join.subqueries Join.refill query.joins values).flatMap Join.subqueries = values :=
    flatMap_refillEach fun join _ _ => optional_refill
  rw [subqueries_eq, refill]
  dsimp only
  rw [joins, optional_refill, optional_refill, List.take_append_drop, List.take_append_drop]
  · rw [List.length_drop, List.length_drop]
    omega
  · rw [List.length_take, List.length_drop]
    omega
  · rw [List.length_take]
    omega

section

variable {m : Type → Type} [Monad m] [LawfulMonad m] (f : Query → m Query)

theorem mapSubqueries_eq (query : Query) :
    query.mapSubqueries f = query.refill <$> query.subqueries.mapM f := by
  have optional : ∀ condition : Option Predicate, condition.mapM (·.mapSubqueries f) =
      (fun queries => condition.map (·.refill queries)) <$>
        (condition.toList.flatMap Predicate.subqueries).mapM f := by
    intro condition
    cases condition with
    | none => simp
    | some inner => simp [Predicate.mapSubqueries_eq]
  have joins : (query.joins.mapM fun join => do
        return { join with condition := ← join.condition.mapM (·.mapSubqueries f) }) =
      refillEach Join.subqueries Join.refill query.joins <$>
        (query.joins.flatMap Join.subqueries).mapM f := by
    apply mapM_eq_refillEach
    intro join _
    rw [optional, bind_pure_comp, Functor.map_map]
    rfl
  let inFilter := query.filter.toList.flatMap Predicate.subqueries
  let inHaving := query.having.toList.flatMap Predicate.subqueries
  have behind : (do
        let filter ← query.filter.mapM (·.mapSubqueries f)
        let having ← query.having.mapM (·.mapSubqueries f)
        return (filter, having)) =
      (fun queries => (query.filter.map (·.refill (queries.take inFilter.length)),
        query.having.map (·.refill (queries.drop inFilter.length)))) <$>
        (inFilter ++ inHaving).mapM f := by
    rw [optional, optional]
    exact map_mapM_append _ _ _ _ Prod.mk
  rw [subqueries_eq]
  refine Eq.trans ?_ <| map_mapM_append (query.joins.flatMap Join.subqueries)
    (inFilter ++ inHaving) (refillEach Join.subqueries Join.refill query.joins)
    (fun queries => (query.filter.map (·.refill (queries.take inFilter.length)),
      query.having.map (·.refill (queries.drop inFilter.length))))
    fun joins conditions =>
      ({ query with joins, filter := conditions.1, having := conditions.2 } : Query)
  rw [← behind, ← joins, mapSubqueries]
  simp only [bind_assoc, pure_bind]

theorem mapSubqueries_of_nil {query : Query} (none : query.subqueries = []) :
    query.mapSubqueries f = pure query := by
  have same := query.refill_subqueries
  rw [none] at same
  rw [mapSubqueries_eq, none, List.mapM_nil, map_pure, same]

/-- Replacing the queries inside a query is taking the step for each of them, one after the other. -/
theorem subqueries_mapSubqueries (query : Query) :
    subqueries <$> query.mapSubqueries f = query.subqueries.mapM f := by
  rw [mapSubqueries_eq, Functor.map_map]
  exact (map_mapM_congr fun results length => query.subqueries_refill length).trans (id_map _)

end

end Query

end QueryGuard
