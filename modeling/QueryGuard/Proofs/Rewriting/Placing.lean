import QueryGuard.Proofs.Meaning.Truth
import QueryGuard.Proofs.Rewriting.Granting
/-!
Where the conditions of criteria stand: whatever is added for a range restricts this range, at the level
that declares it.
-/

set_option autoImplicit false

namespace QueryGuard

open Constraint

/-- The condition decides over the rows of the alias's range, at its level of the query: the WHERE clause
for the root and for inner joins, the condition of its own for a left join. -/
inductive Query.Restricts (name : String) (condition : Predicate) : Query → Prop where
  | filter {query : Query} (declared : name ∈ query.filterNames)
      (written : query.filter = some condition) : Restricts name condition query
  | join {query : Query} {join : Join Predicate} (member : join ∈ query.joins)
      (kind : join.kind = .left) (named : join.name.value = name)
      (written : join.condition = some condition) : Restricts name condition query
  | inside {query inner : Query} (member : inner ∈ query.subqueries)
      (within : Restricts name condition inner) : Restricts name condition query

/-! ### Markers -/

theorem Predicate.markers_subqueries {predicate : Predicate} {inner : Query}
    (member : inner ∈ predicate.subqueries) : inner.markers ⊆ predicate.markers := by
  induction member using Predicate.subqueries_induction with
  | and _ _ among _ ih =>
    rw [markers_and]
    exact List.Subset.trans ih (subset_flatMap among)
  | or _ _ among _ ih =>
    rw [markers_or]
    exact List.Subset.trans ih (subset_flatMap among)
  | not _ _ ih => exact ih
  | group _ _ ih => exact ih
  | inQuery tested negated => exact List.subset_append_right _ _
  | existsIn negated => exact List.Subset.refl _

theorem Query.markers_conditions {query : Query} {condition : Predicate}
    (member : condition ∈ query.conditions) : condition.markers ⊆ query.markers :=
  fun _ marked => Query.mem_markers.mpr (.inr (List.mem_flatMap.mpr ⟨condition, member, marked⟩))

theorem Query.Restricts.markers {name : String} {condition : Predicate} {query : Query}
    (restricts : query.Restricts name condition) : condition.markers ⊆ query.markers := by
  induction restricts with
  | filter _ written => exact Query.markers_conditions (Select.mem_of_filter written)
  | join member _ _ written => exact Query.markers_conditions (Select.mem_of_join member written)
  | inside member _ ih =>
    obtain ⟨outer, among, found⟩ := List.mem_flatMap.mp member
    exact List.Subset.trans ih
      (List.Subset.trans (Predicate.markers_subqueries found) (Query.markers_conditions among))

theorem Predicate.Conjunct.markers {part whole : Predicate} (conjunct : part.Conjunct whole) :
    part.markers ⊆ whole.markers := by
  cases conjunct with
  | alone => exact List.Subset.refl _
  | @among operands operand member grouped =>
    have same : operand.markers = part.markers := by
      cases grouped with
      | already inner => rfl
      | now => rfl
    rw [markers_and, ← same]
    exact subset_flatMap member

/-! ### Levels -/

namespace Constraint

variable {setting : Setting} {copied : String → Predicate → Predicate → Prop}

/-- Queries inside a condition stay inside when parts are added. -/
theorem Conjoined.subqueries {condition result : Option Predicate} {parts : List Predicate}
    (conjoined : Conjoined condition parts result) :
    condition.toList.flatMap Predicate.subqueries ⊆ result.toList.flatMap Predicate.subqueries := by
  cases conjoined with
  | unchanged => exact List.Subset.refl _
  | only => exact List.nil_subset _
  | @several _ _ operands _ _ grouped =>
    rw [Option.toList_some, List.flatMap_singleton, Predicate.subqueries_and]
    intro inner member
    obtain ⟨predicate, among, found⟩ := List.mem_flatMap.mp member
    obtain ⟨operand, listed, same⟩ :=
      exists_mem_of_forall₂ grouped predicate (List.mem_append_left _ among)
    refine List.mem_flatMap.mpr ⟨operand, listed, ?_⟩
    cases same with
    | already => exact found
    | now => exact found

/-- Queries inside a level stay inside when conditions are added for its ranges. -/
theorem subqueries_conjoined {query : Query} {joins : List (Join Predicate)} {parts : List Predicate}
    {filter : Option Predicate} (joined : List.Forall₂ (fun join result => join.SameRange result ∧
      ∃ parts, Conjoined join.condition parts result.condition) query.joins joins)
    (conjoined : Conjoined query.filter parts filter) :
    query.subqueries ⊆ Query.subqueries { query with joins, filter } := by
  rw [Query.subqueries, Query.subqueries, Select.flatMap_conditions, Select.flatMap_conditions]
  intro inner member
  rcases List.mem_append.mp member with member | inHaving
  · refine List.mem_append_left _ ?_
    rcases List.mem_append.mp member with inJoin | inFilter
    · obtain ⟨join, among, found⟩ := List.mem_flatMap.mp inJoin
      obtain ⟨result, listed, _, _, conjoined⟩ := exists_mem_of_forall₂ joined join among
      exact List.mem_append_left _ (List.mem_flatMap.mpr ⟨result, listed, conjoined.subqueries found⟩)
    · exact List.mem_append_right _ (conjoined.subqueries inFilter)
  · exact List.mem_append_right _ inHaving

/-- The parts for an inner join are among those of the WHERE clause, the parts for a left join are
conjuncts of its own condition. -/
theorem JoinsConstrained.placed {joins results : List (Join Predicate)} {others : List Predicate}
    (constrained : JoinsConstrained setting copied joins results others) :
    ∀ join ∈ joins, ∃ parts, JoinContributed setting copied join.name.value parts ∧
      ∃ result ∈ results, result.kind = join.kind ∧ result.name = join.name ∧
        (join.kind = .inner → parts ⊆ others) ∧
        (join.kind = .left → Conjoined join.condition parts result.condition) := by
  induction constrained with
  | nil => exact List.forall_mem_nil _
  | @inner join joins results parts others kind contributed _ ih =>
    refine List.forall_mem_cons.mpr ⟨⟨parts, contributed, join, List.mem_cons_self, rfl, rfl,
      fun _ => List.subset_append_left _ _, fun left => nomatch kind.symm.trans left⟩, ?_⟩
    intro other member
    obtain ⟨parts, contributed, result, listed, same, named, inner, left⟩ := ih other member
    exact ⟨parts, contributed, result, List.mem_cons_of_mem _ listed, same, named,
      fun kind => List.Subset.trans (inner kind) (List.subset_append_right _ _), left⟩
  | @left join joins results parts others condition kind contributed conjoined _ ih =>
    refine List.forall_mem_cons.mpr ⟨⟨parts, contributed, { join with condition },
      List.mem_cons_self, rfl, rfl, fun inner => (nomatch kind.symm.trans inner),
      fun _ => conjoined⟩, ?_⟩
    intro other member
    obtain ⟨parts, contributed, result, listed, rest⟩ := ih other member
    exact ⟨parts, contributed, result, List.mem_cons_of_mem _ listed, rest⟩

/-- What is added for the range of a level restricts it there. -/
theorem LevelConstrained.restricts {related : Query → Query → Prop} {query result : Query}
    (constrained : LevelConstrained setting copied related query result) :
    (∃ parts, Contributed setting copied query.root.name.value parts ∧ ∀ part ∈ parts,
      ∃ condition, result.Restricts query.root.name.value condition ∧ part.Conjunct condition) ∧
    (∀ join ∈ query.joins, ∃ parts, JoinContributed setting copied join.name.value parts ∧
      ∀ part ∈ parts, ∃ condition, result.Restricts join.name.value condition ∧
        part.Conjunct condition) ∧
    (setting.scope.subqueries = true → ∀ inner ∈ query.subqueries,
      ∃ added ∈ result.subqueries, related inner added) := by
  cases constrained with
  | @intro inside joins rootParts innerParts filter nested kept root joined conjoined =>
    have sameRoot : inside.root = query.root := by
      by_cases subqueries : setting.scope.subqueries
      · exact (nested subqueries).root
      · rw [kept (by simpa using subqueries)]
    have sameJoins : ∀ join ∈ query.joins, ∃ other ∈ inside.joins, other.name = join.name := by
      intro join member
      by_cases subqueries : setting.scope.subqueries
      · obtain ⟨other, among, same⟩ := exists_mem_of_forall₂ (nested subqueries).joins join member
        exact ⟨other, among, same.name⟩
      · obtain rfl := kept (by simpa using subqueries)
        exact ⟨join, member, rfl⟩
    refine ⟨⟨rootParts, root, fun part member => ?_⟩, fun join member => ?_, fun applied inner member => ?_⟩
    · obtain ⟨whole, written, conjunct⟩ := conjoined.conjunct (List.mem_append_left _ member)
      exact ⟨whole, .filter (sameRoot ▸ List.mem_cons_self) written, conjunct⟩
    · obtain ⟨other, among, named⟩ := sameJoins join member
      obtain ⟨parts, contributed, result, listed, kind, name, inner, left⟩ := joined.placed other among
      rw [← named]
      refine ⟨parts, contributed, fun part found => ?_⟩
      cases is : other.kind with
      | inner =>
        obtain ⟨whole, written, conjunct⟩ :=
          conjoined.conjunct (List.mem_append_right _ (inner is found))
        refine ⟨whole, .filter (List.mem_cons_of_mem _ ?_) written, conjunct⟩
        exact List.mem_map.mpr ⟨result, List.mem_filter.mpr ⟨listed, by simp [kind, is]⟩,
          by rw [name]⟩
      | left =>
        obtain ⟨whole, written, conjunct⟩ := (left is).conjunct found
        exact ⟨whole, .join listed (kind.trans is) (by rw [name]) written, conjunct⟩
    · obtain ⟨added, among, holds⟩ :=
        exists_mem_of_forall₂ (Query.Replaced.subqueries (nested applied)) inner member
      exact ⟨added, subqueries_conjoined joined.conjoined conjoined among, holds⟩

/-- What is added for a range that criteria are applied to restricts this range. -/
theorem Constrained.restricts {query result : Query}
    (constrained : Constrained setting copied query result) (binding : Binding.Setting)
    (around : Binding.Visible) :
    ∀ range ∈ Binding.rangesOf (Binding.queryActions binding query around),
      setting.scope.Covers range → ∃ parts, Contributed setting copied range.name parts ∧
        ∀ part ∈ parts, ∃ condition, result.Restricts range.name condition ∧
          part.Conjunct condition := by
  induction constrained generalizing around with
  | @intro related query result level _ ih =>
    obtain ⟨root, joined, nested⟩ := level.restricts
    intro range member covered
    rcases covered.cases member with
      named | ⟨applied, join, among, named⟩ | ⟨applied, inner, among, found⟩
    · exact named ▸ root
    · obtain ⟨parts, contributed, each⟩ := joined join among
      rw [JoinContributed, if_pos applied] at contributed
      rw [named]
      exact ⟨parts, contributed, each⟩
    · obtain ⟨added, listed, inside⟩ := nested applied inner among
      obtain ⟨parts, contributed, each⟩ := ih inner added inside _ range found covered
      refine ⟨parts, contributed, fun part member => ?_⟩
      obtain ⟨condition, restricts, conjunct⟩ := each part member
      exact ⟨condition, .inside listed restricts, conjunct⟩

end Constraint

/-- Whatever a criterion contributes for a covered range stands where it restricts the range, copied with
aliases of its own. -/
theorem Model.constrain_restricts {schema catalog : Schema} {query : Query} {parameters : ParameterMap}
    {registry : Registry} {scope : Scope} {security : SecurityContext} {bound model : Model}
    (bind : Model.bind schema query parameters = .ok bound)
    (constrain : bound.constrain catalog registry scope security = .ok model) {range : BoundRange}
    (member : range ∈ bound.ranges) (covered : scope.Covers range) {criterion : Criterion}
    (registered : criterion ∈ registry.criteria) {entity : Entity}
    (known : catalog.entity? range.entity = some entity) (applies : criterion.appliesTo entity = true)
    {contribution : Contribution}
    (result : criterion.contribute ⟨range.name, entity, catalog, security, scope.parameterPrefix⟩ =
      .ok (some contribution)) :
    ∃ copy condition, Copied bound criterion.name contribution.predicate copy ∧
      copy.Conjunct condition ∧ model.query.Restricts range.name condition := by
  have constrained := constrain_covers bind constrain
  have among := member
  rw [ofTree_ranges (bind_ofTree bind)] at among
  obtain ⟨parts, contributed, each⟩ := constrained.restricts _ _ range among covered
  cases contributed with
  | @intro other added found answers =>
    obtain rfl := Option.some.inj ((range?_of_mem (ofTree_nodup bind) member).symm.trans found)
    obtain ⟨part, listed, adds⟩ := exists_mem_of_forall₂ answers criterion registered
    cases adds with
    | exempt known' other =>
      obtain rfl := Option.some.inj (known.symm.trans known')
      simp [applies] at other
    | silent known' _ silent =>
      obtain rfl := Option.some.inj (known.symm.trans known')
      cases result.symm.trans silent
    | @condition _ _ copy known' _ result' copied =>
      obtain rfl := Option.some.inj (known.symm.trans known')
      obtain rfl := Option.some.inj (Except.ok.inj (result.symm.trans result'))
      obtain ⟨condition, restricts, conjunct⟩ :=
        each copy (List.mem_filterMap.mpr ⟨some copy, listed, rfl⟩)
      exact ⟨copy, condition, copied, conjunct, restricts⟩

end QueryGuard
