import QueryGuard.Proofs.Binding.Resolution
import QueryGuard.Proofs.Rewriting.Coverage
/-!
Adding conditions to a query adds actions: those of the query itself are performed as before, in the
same order.
-/

set_option autoImplicit false

namespace QueryGuard

open Constraint

/-- The joins declare the same range. -/
structure Join.SameRange {α β : Type} (join : Join α) (other : Join β) : Prop where
  kind : other.kind = join.kind
  target : other.target = join.target
  name : other.name = join.name

theorem flatMap_sublist {α β γ : Type} {f : α → List γ} {g : β → List γ} {items : List α}
    {others : List β} (each : List.Forall₂ (fun x y => (f x).Sublist (g y)) items others) :
    (items.flatMap f).Sublist (others.flatMap g) := by
  induction each with
  | nil => exact .slnil
  | cons first _ ih => exact first.append ih

namespace Binding

/-! ### Ranges -/

section

variable {schema : Schema} {first second : List (String × String)}

/-- Joins that declare the same ranges are looked up alike, unless a criterion added one of them. -/
theorem joinsActions_congr {α β : Type} {joins : List (Join α)} {others : List (Join β)}
    (each : List.Forall₂ Join.SameRange joins others)
    (agree : ∀ join ∈ joins, first.lookup join.name.value = second.lookup join.name.value)
    (visible : Visible) :
    joinsActions ⟨schema, first⟩ visible joins = joinsActions ⟨schema, second⟩ visible others ∧
      afterJoins ⟨schema, first⟩ visible joins = afterJoins ⟨schema, second⟩ visible others := by
  induction each generalizing visible with
  | nil => exact ⟨rfl, rfl⟩
  | @cons join other rest others same _ ih =>
    have range : joinRange ⟨schema, first⟩ visible join =
        joinRange ⟨schema, second⟩ visible other := by
      simp only [joinRange, rangeOf, same.kind, same.target, same.name,
        agree join List.mem_cons_self]
      rfl
    have target : targetActions visible join.name join.target =
        targetActions visible other.name other.target := by
      rw [same.name, same.target]
    obtain ⟨actions, after⟩ := ih (fun join member => agree join (List.mem_cons_of_mem _ member))
      (visible.extend (joinRange ⟨schema, second⟩ visible other))
    simp only [joinsActions, afterJoins, joinActions, range, target, actions, after, and_self]

theorem rangeActions_congr {α β : Type} {query : Select α} {other : Select β}
    (root : other.root = query.root) (each : List.Forall₂ Join.SameRange query.joins other.joins)
    (agree : ∀ name ∈ query.aliases.map (·.value), first.lookup name = second.lookup name)
    (around : Visible) :
    rangeActions ⟨schema, first⟩ around query = rangeActions ⟨schema, second⟩ around other ∧
      levelVisible ⟨schema, first⟩ around query = levelVisible ⟨schema, second⟩ around other := by
  rw [Select.aliases, List.map_cons, List.map_map, List.forall_mem_cons] at agree
  have range : rootRange ⟨schema, first⟩ around query =
      rootRange ⟨schema, second⟩ around other := by
    simp only [rootRange, rangeOf, root, agree.1]
  have joined : ∀ visible : Visible,
      joinsActions ⟨schema, first⟩ visible query.joins =
        joinsActions ⟨schema, second⟩ visible other.joins ∧
      afterJoins ⟨schema, first⟩ visible query.joins =
        afterJoins ⟨schema, second⟩ visible other.joins :=
    joinsActions_congr each fun join member => agree.2 _ (List.mem_map_of_mem member)
  obtain ⟨actions, after⟩ := joined (around.extend (rootRange ⟨schema, second⟩ around other))
  simp only [rangeActions, levelVisible, range, root, actions, after, and_self]

end

/-! ### Conditions -/

section

variable {first second : Setting}

/-- The actions of the condition are among those of the other one, in their order. -/
def Within (first second : Setting) (condition other : Option Predicate) : Prop :=
  ∀ visible : Visible, (condition.toList.flatMap (conditionActions first · visible)).Sublist
    (other.toList.flatMap (conditionActions second · visible))

theorem conditionActions_grouped {predicate grouped : Predicate} (same : Grouped predicate grouped)
    (visible : Visible) :
    conditionActions second predicate visible = conditionActions second grouped visible := by
  cases same with
  | already inner => rfl
  | now => rfl

theorem Within.conjoined {condition inside result : Option Predicate} {parts : List Predicate}
    (within : Within first second condition inside) (conjoined : Conjoined inside parts result) :
    Within first second condition result := by
  intro visible
  cases conjoined with
  | unchanged => exact within visible
  | only part => exact (within visible).trans (List.nil_sublist _)
  | @several _ _ operands nonempty several grouped =>
    have actions : (inside.toList ++ parts).flatMap (conditionActions second · visible) =
        operands.flatMap (conditionActions second · visible) := by
      rw [List.flatMap_def, List.flatMap_def]
      refine congrArg List.flatten (List.forall₂_eq_eq_eq ▸ ?_)
      rw [List.forall₂_map_left_iff, List.forall₂_map_right_iff]
      exact grouped.imp fun _ _ same => conditionActions_grouped same visible
    rw [Option.toList_some, List.flatMap_singleton, conditionActions_and, ← actions,
      List.flatMap_append]
    exact (within visible).trans (List.sublist_append_left _ _)

/-- Replacing the queries inside a condition keeps its actions if it keeps those of the queries. -/
theorem conditionActions_replaced {related : Query → Query → Prop} {predicate result : Predicate}
    (replaced : predicate.Replaced related result)
    (each : ∀ inner ∈ predicate.subqueries, ∀ added, related inner added → ∀ visible,
      (queryActions first inner visible).Sublist (queryActions second added visible))
    (visible : Visible) :
    (conditionActions first predicate visible).Sublist
      (conditionActions second result visible) := by
  revert each
  refine replaced.induction ?and ?or ?not ?group ?test ?inQuery ?existsIn
  case and =>
    intro operands results each inside
    rw [Predicate.subqueries_and, List.forall_mem_flatMap] at inside
    rw [conditionActions_and, conditionActions_and]
    exact flatMap_sublist
      (((List.forall₂_and_left _ _).mpr ⟨inside, each⟩).imp fun _ _ both => both.2 both.1)
  case or =>
    intro operands results each inside
    rw [Predicate.subqueries_or, List.forall_mem_flatMap] at inside
    rw [conditionActions_or, conditionActions_or]
    exact flatMap_sublist
      (((List.forall₂_and_left _ _).mpr ⟨inside, each⟩).imp fun _ _ both => both.2 both.1)
  case not => exact fun _ _ => id
  case group => exact fun _ _ => id
  case test =>
    intro test _
    change (testActions visible test).Sublist (testActions visible test)
    exact List.Sublist.refl _
  case inQuery =>
    intro tested query result negated same inside
    rw [conditionActions_inQuery, conditionActions_inQuery]
    exact (inside query List.mem_cons_self result same _).append_left _
  case existsIn =>
    intro query result negated same inside
    rw [conditionActions_existsIn, conditionActions_existsIn]
    exact inside query List.mem_cons_self result same _

theorem Within.replaced {related : Query → Query → Prop} {condition result : Option Predicate}
    (replaced : Option.Rel (Predicate.Replaced related) condition result)
    (each : ∀ predicate ∈ condition, ∀ inner ∈ predicate.subqueries, ∀ added, related inner added →
      ∀ visible, (queryActions first inner visible).Sublist (queryActions second added visible)) :
    Within first second condition result := by
  intro visible
  cases replaced with
  | none => exact .slnil
  | some replaced =>
    rw [Option.toList_some, Option.toList_some, List.flatMap_singleton, List.flatMap_singleton]
    exact conditionActions_replaced replaced (each _ rfl) visible

/-- Joins keep their ranges and their actions when the queries inside their conditions are replaced, and
conditions are added to theirs. -/
theorem Within.joins {related : Query → Query → Prop} {joins between results : List (Join Predicate)}
    (replaced : List.Forall₂ (Join.Related (Predicate.Replaced related)) joins between)
    (joined : List.Forall₂ (fun join result => join.SameRange result ∧
      ∃ parts, Conjoined join.condition parts result.condition) between results)
    (each : ∀ join ∈ joins, ∀ predicate ∈ join.condition, ∀ inner ∈ predicate.subqueries,
      ∀ added, related inner added → ∀ visible,
        (queryActions first inner visible).Sublist (queryActions second added visible)) :
    List.Forall₂ (fun join result => join.SameRange result ∧
      Within first second join.condition result.condition) joins results := by
  induction replaced generalizing results with
  | nil =>
    cases joined
    exact .nil
  | cons same _ ih =>
    cases joined with
    | cons holds others =>
      obtain ⟨here, further⟩ := List.forall_mem_cons.mp each
      obtain ⟨range, parts, conjoined⟩ := holds
      exact .cons ⟨⟨range.kind.trans same.kind, range.target.trans same.target,
        range.name.trans same.name⟩, (Within.replaced same.condition here).conjoined conjoined⟩
        (ih others further)

end

/-! ### Queries -/

variable {schema : Schema} {first second : List (String × String)}

/-- The actions of a level are kept when conditions are added to it and to the queries inside. -/
theorem levelActions_sublist {related : Query → Query → Prop} {query inside : Query}
    {joins : List (Join Predicate)} {filter : Option Predicate} {parts : List Predicate}
    (replaced : query.Replaced related inside)
    (joined : List.Forall₂ (fun join result => join.SameRange result ∧
      ∃ parts, Conjoined join.condition parts result.condition) inside.joins joins)
    (conjoined : Conjoined inside.filter parts filter)
    (each : ∀ inner ∈ query.subqueries, ∀ added, related inner added → ∀ visible,
      (queryActions ⟨schema, first⟩ inner visible).Sublist
        (queryActions ⟨schema, second⟩ added visible))
    (agree : ∀ name ∈ query.aliases.map (·.value), first.lookup name = second.lookup name)
    (around : Visible) :
    (queryActions ⟨schema, first⟩ query around).Sublist
      (queryActions ⟨schema, second⟩ { inside with joins, filter } around) := by
  have below : ∀ condition ∈ query.conditions, ∀ inner ∈ condition.subqueries, ∀ added,
      related inner added → ∀ visible, (queryActions ⟨schema, first⟩ inner visible).Sublist
        (queryActions ⟨schema, second⟩ added visible) := by
    intro condition among inner member
    exact each inner (List.mem_flatMap.mpr ⟨condition, among, member⟩)
  have widened : List.Forall₂ (fun join result => join.SameRange result ∧
      Within ⟨schema, first⟩ ⟨schema, second⟩ join.condition result.condition)
      query.joins joins :=
    Within.joins replaced.joins joined fun _ member condition found =>
      below condition (Select.mem_of_join member found)
  have ranges : List.Forall₂ Join.SameRange query.joins joins := widened.imp fun _ _ => And.left
  let result : Query := { inside with joins, filter }
  have root : result.root = query.root := replaced.root
  obtain ⟨actions, level⟩ : rangeActions ⟨schema, first⟩ around query =
        rangeActions ⟨schema, second⟩ around result ∧
      levelVisible ⟨schema, first⟩ around query = levelVisible ⟨schema, second⟩ around result :=
    rangeActions_congr root ranges agree around
  have filtered : Within ⟨schema, first⟩ ⟨schema, second⟩ query.filter filter :=
    (Within.replaced replaced.filter fun condition found =>
      below condition (Select.mem_of_filter found)).conjoined conjoined
  have having : Within ⟨schema, first⟩ ⟨schema, second⟩ query.having inside.having :=
    Within.replaced replaced.having fun condition found =>
      below condition (Select.mem_of_having found)
  rw [queryActions_eq, queryActions_eq, actions, level]
  generalize levelVisible ⟨schema, second⟩ around result = visible
  dsimp only [result]
  rw [replaced.items, replaced.groupBy, replaced.orderBy]
  have conditions := flatMap_sublist (widened.imp fun _ _ holds => holds.2 visible)
  refine .append (.append (.append (.append (.append ?_ conditions) (filtered visible)) ?_)
    (having visible)) ?_
  · exact List.Sublist.refl _
  · exact List.Sublist.refl _
  · exact List.Sublist.refl _

/-- A query that no criterion added is looked up as before. -/
theorem queryActions_agree {query : Query}
    (agree : ∀ name ∈ query.allAliases, first.lookup name = second.lookup name)
    (around : Visible) :
    (queryActions ⟨schema, first⟩ query around).Sublist
      (queryActions ⟨schema, second⟩ query around) := by
  induction size : query.nesting using Nat.strongRecOn generalizing query around with
  | ind size ih =>
    have own : ∀ name ∈ query.aliases.map (·.value), first.lookup name = second.lookup name :=
      fun name member => agree name (query.aliases_subset member)
    have same : query.Replaced Eq query := .refl fun _ _ => rfl
    refine levelActions_sublist same
      (List.forall₂_same.mpr fun join _ => ⟨⟨rfl, rfl, rfl⟩, [], .unchanged _⟩)
      (.unchanged query.filter) ?_ own around
    rintro inner member _ rfl visible
    exact ih inner.nesting (size ▸ Query.nesting_lt member)
      (fun name found => agree name (Query.allAliases_subset member found)) visible rfl

end Binding

namespace Constraint

variable {setting : Setting} {copied : String → Predicate → Predicate → Prop}

theorem JoinsConstrained.conjoined {joins results : List (Join Predicate)} {others : List Predicate}
    (constrained : JoinsConstrained setting copied joins results others) :
    List.Forall₂ (fun join result => join.SameRange result ∧
      ∃ parts, Conjoined join.condition parts result.condition) joins results := by
  induction constrained with
  | nil => exact .nil
  | inner kind contributed rest ih => exact .cons ⟨⟨rfl, rfl, rfl⟩, [], .unchanged _⟩ ih
  | left kind contributed conjoined rest ih => exact .cons ⟨⟨rfl, rfl, rfl⟩, _, conjoined⟩ ih

/-- A constrained query is looked up as before, and what criteria added besides. -/
theorem Constrained.queryActions_sublist {schema : Schema} {first second : List (String × String)}
    {query result : Query} (constrained : Constrained setting copied query result)
    (agree : ∀ name ∈ query.allAliases, first.lookup name = second.lookup name)
    (around : Binding.Visible) :
    (Binding.queryActions ⟨schema, first⟩ query around).Sublist
      (Binding.queryActions ⟨schema, second⟩ result around) := by
  induction constrained generalizing around with
  | @intro related query result level _ ih =>
    have own : ∀ name ∈ query.aliases.map (·.value), first.lookup name = second.lookup name :=
      fun name member => agree name (query.aliases_subset member)
    have below : ∀ inner ∈ query.subqueries, ∀ name ∈ inner.allAliases,
        first.lookup name = second.lookup name :=
      fun inner member name found => agree name (Query.allAliases_subset member found)
    cases level with
    | @intro nested _ _ _ _ replaced kept _ joined conjoined =>
      by_cases subqueries : setting.scope.subqueries
      · exact Binding.levelActions_sublist (replaced subqueries) joined.conjoined conjoined
          (fun inner member added same => ih inner added same (below inner member)) own around
      · obtain rfl := kept (by simpa using subqueries)
        have same : nested.Replaced Eq nested := .refl fun _ _ => rfl
        refine Binding.levelActions_sublist same joined.conjoined conjoined ?_ own around
        rintro inner member _ rfl visible
        exact Binding.queryActions_agree (below inner member) visible

end Constraint

end QueryGuard
