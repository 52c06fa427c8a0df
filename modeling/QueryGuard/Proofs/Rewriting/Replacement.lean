import Mathlib.Data.List.Forall2
import QueryGuard.Proofs.Trees
/-!
Queries inside conditions are replaced step by step. What the steps ensure of each of them, the
whole replacement ensures of all.
-/

set_option autoImplicit false

namespace QueryGuard

/-! ### Steps -/

/-- Two steps succeed if the first one does and then the second one. -/
theorem ok_of_bind {ε α β : Type} {step : Except ε α} {next : α → Except ε β} {value : β}
    (result : step >>= next = .ok value) : ∃ found, step = .ok found ∧ next found = .ok value := by
  cases step with
  | error error => cases result
  | ok found => exact ⟨found, rfl, result⟩

theorem error_of_bind {ε α β : Type} {step : Except ε α} {next : α → Except ε β} {error : ε}
    (fails : step >>= next = .error error) :
    step = .error error ∨ ∃ found, step = .ok found ∧ next found = .error error := by
  cases step with
  | error other =>
    cases fails
    exact .inl rfl
  | ok found => exact .inr ⟨found, rfl, fails⟩

theorem ok_of_toOption {ε α : Type} {result : Except ε α} {value : α}
    (is : result.toOption = some value) : result = .ok value := by
  cases result with
  | error error => contradiction
  | ok other => rw [Option.some.inj is]

theorem error_of_map {ε α β : Type} {f : α → β} {result : Except ε α} {error : ε}
    (fails : result.map f = .error error) : result = .error error := by
  cases result with
  | error other => rw [Except.error.inj fails]
  | ok value => cases fails

/-- Steps for all elements succeed if and only if each of them does. -/
theorem mapM_ok_iff {ε α β : Type} {step : α → Except ε β} {items : List α} {results : List β} :
    items.mapM step = .ok results ↔ List.Forall₂ (fun x y => step x = .ok y) items results := by
  induction items generalizing results with
  | nil =>
    rw [List.mapM_nil, List.forall₂_nil_left_iff]
    exact ⟨fun same => (Except.ok.inj same).symm, fun empty => empty ▸ rfl⟩
  | cons first rest ih =>
    rw [List.mapM_cons]
    constructor
    · intro result
      obtain ⟨value, here, result⟩ := ok_of_bind result
      obtain ⟨values, others, same⟩ := ok_of_bind result
      rw [← Except.ok.inj same]
      exact .cons here (ih.mp others)
    · intro each
      cases each with
      | cons here others =>
        rw [here, ih.mpr others]
        rfl

theorem forM_ok {ε α : Type} {step : α → Except ε Unit} {items : List α}
    (all : items.forM step = .ok ()) : ∀ item ∈ items, step item = .ok () := by
  induction items with
  | nil => exact List.forall_mem_nil _
  | cons first rest ih =>
    obtain ⟨⟨⟩, here, others⟩ := ok_of_bind all
    exact List.forall_mem_cons.mpr ⟨here, ih others⟩

/-- A way to say what the steps of a monad ensure of their results. -/
structure Ensuring (m : Type → Type) [Monad m] where
  of : {α : Type} → m α → (α → Prop) → Prop
  pure : ∀ {α : Type} {value : α} {P : α → Prop}, P value → of (pure value) P
  bind : ∀ {α β : Type} {step : m α} {next : α → m β} {P : α → Prop} {Q : β → Prop},
    of step P → (∀ value, P value → of (next value) Q) → of (step >>= next) Q

namespace Ensuring

variable {m : Type → Type} [Monad m] [LawfulMonad m] (ensuring : Ensuring m) {α β : Type}

include ensuring

theorem mono {step : m α} {P Q : α → Prop} (ensures : ensuring.of step P)
    (weaker : ∀ value, P value → Q value) : ensuring.of step Q := by
  rw [← bind_pure step]
  exact ensuring.bind ensures fun value holds => ensuring.pure (weaker value holds)

/-- Steps for the elements of a list, one after the other. -/
theorem mapM {step : α → m β} {related : α → β → Prop} {items : List α}
    (each : ∀ x ∈ items, ensuring.of (step x) (related x)) :
    ensuring.of (items.mapM step) (List.Forall₂ related items) := by
  induction items with
  | nil =>
    rw [List.mapM_nil]
    exact ensuring.pure .nil
  | cons first rest ih =>
    rw [List.mapM_cons]
    apply ensuring.bind (each first List.mem_cons_self)
    intro value holds
    refine ensuring.bind (ih fun x member => each x (List.mem_cons_of_mem _ member)) ?_
    exact fun values others => ensuring.pure (.cons holds others)

theorem forM {step : α → m Unit} {holds : α → Prop} {items : List α}
    (each : ∀ x ∈ items, ensuring.of (step x) fun _ => holds x) :
    ensuring.of (items.forM step) fun _ => ∀ x ∈ items, holds x := by
  induction items with
  | nil => exact ensuring.pure (by simp)
  | cons first rest ih =>
    apply ensuring.bind (each first List.mem_cons_self)
    intro _ here
    refine ensuring.mono (ih fun x member => each x (List.mem_cons_of_mem _ member)) ?_
    exact fun _ others => List.forall_mem_cons.mpr ⟨here, others⟩

theorem optionMapM {step : α → m β} {related : α → β → Prop} {item : Option α}
    (each : ∀ x ∈ item, ensuring.of (step x) (related x)) :
    ensuring.of (item.mapM step) (Option.Rel related item) := by
  cases item with
  | none => exact ensuring.pure .none
  | some x =>
    have found : (some x).mapM step = some <$> step x := rfl
    rw [found, map_eq_pure_bind]
    exact ensuring.bind (each x rfl) fun value holds => ensuring.pure (.some holds)

end Ensuring

/-! ### Trees that differ in some places -/

/-- The joins are the same but for their conditions, which are related. -/
structure Join.Related {α β : Type} (related : α → β → Prop) (join : Join α) (result : Join β) :
    Prop where
  kind : result.kind = join.kind
  target : result.target = join.target
  name : result.name = join.name
  span : result.span = join.span
  condition : Option.Rel related join.condition result.condition

/-- The queries are the same but for their conditions, which are related. -/
structure Select.Related {α β : Type} (related : α → β → Prop) (query : Select α)
    (result : Select β) : Prop where
  distinct : result.distinct = query.distinct
  items : result.items = query.items
  root : result.root = query.root
  joins : List.Forall₂ (Join.Related related) query.joins result.joins
  filter : Option.Rel related query.filter result.filter
  groupBy : result.groupBy = query.groupBy
  having : Option.Rel related query.having result.having
  orderBy : result.orderBy = query.orderBy
  limit : result.limit = query.limit
  offset : result.offset = query.offset
  span : result.span = query.span

/-- The conditions are the same but for the queries inside them, which are related. -/
inductive Predicate.Replaced (related : Query → Query → Prop) : Predicate → Predicate → Prop where
  | and {operands results : List Predicate}
      (each : List.Forall₂ (Replaced related) operands results) :
      Replaced related (.and operands) (.and results)
  | or {operands results : List Predicate}
      (each : List.Forall₂ (Replaced related) operands results) :
      Replaced related (.or operands) (.or results)
  | not {operand result : Predicate} (inner : Replaced related operand result) :
      Replaced related operand.not result.not
  | group {operand result : Predicate} (inner : Replaced related operand result) :
      Replaced related operand.group result.group
  | test (test : Test) : Replaced related (.test test) (.test test)
  | inQuery {query result : Query} (tested : Expr) (negated : Bool)
      (inside : related query result) :
      Replaced related (.inQuery tested query negated) (.inQuery tested result negated)
  | existsIn {query result : Query} (negated : Bool) (inside : related query result) :
      Replaced related (.existsIn query negated) (.existsIn result negated)

/-- The queries are the same but for those inside their conditions, which are related. -/
def Query.Replaced (related : Query → Query → Prop) : Query → Query → Prop :=
  Select.Related (Predicate.Replaced related)

/-- Related joins have the same names. -/
theorem Select.Related.joinsNamed {α β γ : Type} {related : α → β → Prop} {query : Select α}
    {result : Select β} (same : query.Related related result) {P : Name → γ → Prop}
    {values : List γ} (each : List.Forall₂ (fun join => P join.name) query.joins values) :
    List.Forall₂ (fun join => P join.name) result.joins values := by
  have joins := same.joins
  revert joins each
  generalize query.joins = joins
  generalize result.joins = results
  intro each joins
  induction joins generalizing values with
  | nil =>
    cases each
    exact .nil
  | cons first _ ih =>
    cases each with
    | cons holds others => exact .cons (first.name ▸ holds) (ih others)

/-- What follows for the second of two related values holds of all elements of the second list. -/
theorem forall_mem_of_forall₂ {α β : Type} {related : α → β → Prop} {P : β → Prop} {items : List α}
    {results : List β} (each : List.Forall₂ related items results)
    (follows : ∀ x ∈ items, ∀ y, related x y → P y) : ∀ y ∈ results, P y := by
  induction each with
  | nil => simp
  | cons holds _ ih =>
    intro y member
    rcases List.mem_cons.mp member with rfl | member
    · exact follows _ List.mem_cons_self y holds
    · exact ih (fun x among => follows x (List.mem_cons_of_mem _ among)) y member

theorem forall_mem_of_forall₂_left {α β : Type} {P : α → Prop} {items : List α} {results : List β}
    (each : List.Forall₂ (fun x _ => P x) items results) : ∀ x ∈ items, P x := by
  induction each with
  | nil => simp
  | cons holds _ ih => exact List.forall_mem_cons.mpr ⟨holds, ih⟩

/-- The first of two related lists has a partner for each of its elements in the second one. -/
theorem exists_mem_of_forall₂ {α β : Type} {related : α → β → Prop} {items : List α}
    {results : List β} (each : List.Forall₂ related items results) :
    ∀ x ∈ items, ∃ y ∈ results, related x y := by
  induction each with
  | nil => simp
  | @cons first result _ _ holds _ ih =>
    refine List.forall_mem_cons.mpr ⟨⟨result, List.mem_cons_self, holds⟩, fun x member => ?_⟩
    obtain ⟨y, among, related⟩ := ih x member
    exact ⟨y, List.mem_cons_of_mem _ among, related⟩

/-- The conditions of related queries are related in their order. -/
theorem Select.Related.conditions {α β : Type} {related : α → β → Prop} {query : Select α}
    {result : Select β} (same : query.Related related result) :
    List.Forall₂ related query.conditions result.conditions := by
  have optional : ∀ {condition : Option α} {changed : Option β},
      Option.Rel related condition changed →
      List.Forall₂ related condition.toList changed.toList := by
    intro condition changed holds
    cases holds with
    | some holds => exact .cons holds .nil
    | none => exact .nil
  have joined := List.rel_filterMap (fun _ _ join => join.condition) same.joins
  exact List.rel_append (List.rel_append joined (optional same.filter)) (optional same.having)

/-- What replacing a query establishes, and goes over from the operands of conditions to the conditions, holds
wherever queries inside are replaced. -/
@[elab_as_elim]
theorem Predicate.Replaced.induction {related : Query → Query → Prop}
    {motive : Predicate → Predicate → Prop}
    (and : ∀ operands results : List Predicate, List.Forall₂ motive operands results →
      motive (.and operands) (.and results))
    (or : ∀ operands results : List Predicate, List.Forall₂ motive operands results →
      motive (.or operands) (.or results))
    (not : ∀ operand result : Predicate, motive operand result → motive operand.not result.not)
    (group : ∀ operand result : Predicate, motive operand result →
      motive operand.group result.group)
    (test : ∀ test : Test, motive (.test test) (.test test))
    (inQuery : ∀ (tested : Expr) (query result : Query) (negated : Bool), related query result →
      motive (.inQuery tested query negated) (.inQuery tested result negated))
    (existsIn : ∀ (query result : Query) (negated : Bool), related query result →
      motive (.existsIn query negated) (.existsIn result negated))
    {predicate result : Predicate} (replaced : predicate.Replaced related result) :
    motive predicate result := by
  have all : ∀ {operands results : List Predicate},
      List.Forall₂ (Predicate.Replaced related) operands results →
      (∀ operand ∈ operands, ∀ {result}, operand.Replaced related result → motive operand result) →
      List.Forall₂ motive operands results := by
    intro operands results each ih
    induction each with
    | nil => exact .nil
    | cons first _ rest =>
      exact .cons (ih _ List.mem_cons_self first)
        (rest fun operand member => ih operand (List.mem_cons_of_mem _ member))
  induction predicate using Predicate.induction generalizing result with
  | and operands ih =>
    cases replaced with
    | and each => exact and operands _ (all each ih)
  | or operands ih =>
    cases replaced with
    | or each => exact or operands _ (all each ih)
  | not operand ih =>
    cases replaced with
    | not inner => exact not operand _ (ih inner)
  | group operand ih =>
    cases replaced with
    | group inner => exact group operand _ (ih inner)
  | test leaf =>
    cases replaced with
    | test => exact test leaf
  | inQuery tested query negated =>
    cases replaced with
    | inQuery _ _ inside => exact inQuery tested query _ negated inside
  | existsIn query negated =>
    cases replaced with
    | existsIn _ inside => exact existsIn query _ negated inside

/-- The queries inside related conditions are related in their order. -/
theorem Predicate.Replaced.subqueries {related : Query → Query → Prop} {predicate result : Predicate}
    (replaced : predicate.Replaced related result) :
    List.Forall₂ related predicate.subqueries result.subqueries := by
  refine replaced.induction ?and ?or ?not ?group ?test ?inQuery ?existsIn
  case and =>
    intro operands results each
    rw [subqueries_and, subqueries_and]
    exact List.rel_flatMap each fun _ _ => id
  case or =>
    intro operands results each
    rw [subqueries_or, subqueries_or]
    exact List.rel_flatMap each fun _ _ => id
  case not => exact fun _ _ => id
  case group => exact fun _ _ => id
  case test => exact fun _ => .nil
  case inQuery => exact fun _ _ _ _ inside => .cons inside .nil
  case existsIn => exact fun _ _ _ inside => .cons inside .nil

theorem Query.Replaced.subqueries {related : Query → Query → Prop} {query result : Query}
    (replaced : query.Replaced related result) :
    List.Forall₂ related query.subqueries result.subqueries :=
  List.rel_flatMap (Select.Related.conditions replaced) fun _ _ => Predicate.Replaced.subqueries

namespace Predicate

variable {m : Type → Type} [Monad m] [LawfulMonad m]

theorem mapSubqueriesOfAll_eq_mapM (f : Query → m Query) (predicates : List Predicate) :
    mapSubqueriesOfAll f predicates = predicates.mapM (mapSubqueries f) := by
  induction predicates with
  | nil => rw [mapSubqueriesOfAll, List.mapM_nil]
  | cons predicate rest ih => rw [mapSubqueriesOfAll, List.mapM_cons, ih]

/-- Replacing the queries inside a condition ensures of each what its own step does. -/
theorem mapSubqueries_ensures (ensuring : Ensuring m) {f : Query → m Query}
    {related : Query → Query → Prop} (predicate : Predicate)
    (each : ∀ query ∈ predicate.subqueries, ensuring.of (f query) (related query)) :
    ensuring.of (predicate.mapSubqueries f) (predicate.Replaced related) := by
  have all : ∀ operands : List Predicate, (∀ operand ∈ operands,
      ensuring.of (operand.mapSubqueries f) (operand.Replaced related)) →
      ensuring.of (mapSubqueriesOfAll f operands) (List.Forall₂ (Replaced related) operands) := by
    intro operands holds
    rw [mapSubqueriesOfAll_eq_mapM]
    exact ensuring.mapM holds
  induction predicate using Predicate.induction with
  | and operands ih =>
    rw [subqueries_and] at each
    refine ensuring.bind (all operands fun operand member => ih operand member ?_) ?_
    · exact fun query found => each query (List.mem_flatMap.mpr ⟨operand, member, found⟩)
    · exact fun results holds => ensuring.pure (.and holds)
  | or operands ih =>
    rw [subqueries_or] at each
    refine ensuring.bind (all operands fun operand member => ih operand member ?_) ?_
    · exact fun query found => each query (List.mem_flatMap.mpr ⟨operand, member, found⟩)
    · exact fun results holds => ensuring.pure (.or holds)
  | not operand ih =>
    exact ensuring.bind (ih each) fun result holds => ensuring.pure (.not holds)
  | group operand ih =>
    exact ensuring.bind (ih each) fun result holds => ensuring.pure (.group holds)
  | test test => exact ensuring.pure (.test test)
  | inQuery tested query negated =>
    exact ensuring.bind (each query List.mem_cons_self) fun result holds =>
      ensuring.pure (.inQuery tested negated holds)
  | existsIn query negated =>
    exact ensuring.bind (each query List.mem_cons_self) fun result holds =>
      ensuring.pure (.existsIn negated holds)

end Predicate

/-- Replacing the queries inside a query ensures of each what its own step does. -/
theorem Query.mapSubqueries_ensures {m : Type → Type} [Monad m] [LawfulMonad m]
    (ensuring : Ensuring m) {f : Query → m Query} {related : Query → Query → Prop} (query : Query)
    (each : ∀ inner ∈ query.subqueries, ensuring.of (f inner) (related inner)) :
    ensuring.of (query.mapSubqueries f) (query.Replaced related) := by
  have optional : ∀ condition : Option Predicate, (∀ inner ∈ condition, inner ∈ query.conditions) →
      ensuring.of (condition.mapM (·.mapSubqueries f))
        (Option.Rel (Predicate.Replaced related) condition) :=
    fun _ among => ensuring.optionMapM fun condition found =>
      condition.mapSubqueries_ensures ensuring fun inner member =>
        each inner (List.mem_flatMap.mpr ⟨condition, among condition found, member⟩)
  have joins : ∀ join ∈ query.joins, ensuring.of
      (do return { join with condition := ← join.condition.mapM (·.mapSubqueries f) })
      (Join.Related (Predicate.Replaced related) join) := fun join member =>
    ensuring.bind (optional join.condition fun _ => Select.mem_of_join member) fun _ holds =>
      ensuring.pure ⟨rfl, rfl, rfl, rfl, holds⟩
  apply ensuring.bind (ensuring.mapM joins)
  intro joins ofJoins
  refine ensuring.bind (optional query.filter fun _ => Select.mem_of_filter) ?_
  intro filter ofFilter
  refine ensuring.bind (optional query.having fun _ => Select.mem_of_having) ?_
  intro having ofHaving
  exact ensuring.pure ⟨rfl, rfl, rfl, ofJoins, ofFilter, rfl, ofHaving, rfl, rfl, rfl, rfl⟩

end QueryGuard
