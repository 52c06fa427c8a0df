import QueryGuard.Proofs.Binding.Chains
import QueryGuard.Proofs.Binding.Resolution
/-!
Every range of a model stands for an entity that the catalog knows, and that of a join along a path
for the one that the path leads to.
-/

set_option autoImplicit false

namespace QueryGuard

namespace Binding

variable {setting : Setting}

/-- The action fails if the catalog does not know the entity of the range. -/
inductive Requires (setting : Setting) (range : BoundRange) : Action → Prop where
  | named {name entity : Name} (same : range.entity = entity.value) :
      Requires setting range (.require name entity)
  | led {visible : Visible} {path : Path}
      (same : range.entity = entityOf setting visible (.path path)) :
      Requires setting range (.expectEntity visible path)

/-- The entities that a join is for are those that its path leads to. -/
theorem entity?_of_expected {visible : Visible} {path : Path} {navigation : Navigation}
    {before after : Found} (leads : resolve setting.schema visible path = .ok navigation)
    (run : (perform setting (.expectEntity visible path)).run before = .ok ((), after)) :
    navigation.entity? = some (entityOf setting visible (.path path)) := by
  rw [perform_expectEntity_run leads] at run
  split at run
  · cases run
  · rename_i present
    rw [Option.isNone_iff_eq_none] at present
    obtain ⟨name, ends⟩ := Option.ne_none_iff_exists'.mp present
    simp only [entityOf, leads, ends, Option.getD_some]

theorem Requires.known {range : BoundRange} {action : Action} {before after : Found}
    (requires : Requires setting range action)
    (run : (perform setting action).run before = .ok ((), after)) :
    ∃ entity, setting.schema.entity? range.entity = some entity := by
  cases requires with
  | @named name entity same =>
    rw [perform, requireEntity] at run
    split at run
    · cases run
    · rename_i known
      rw [Bool.not_eq_true', Bool.not_eq_false] at known
      rw [same]
      exact Option.isSome_iff_exists.mp known
  | @led visible path same =>
    cases leads : resolve setting.schema visible path with
    | error error =>
      rw [perform, leads] at run
      cases run
    | ok navigation =>
      obtain ⟨start, _, navigates⟩ := resolve_ok leads
      rw [same]
      exact Schema.navigate_entity navigates (entity?_of_expected leads run)

/-- Before a range is added, its entity is required to be known. -/
theorem exists_requires_rangeActions {α : Type} {around : Visible} {query : Select α}
    {range : BoundRange} (member : range ∈ rangesOf (rangeActions setting around query)) :
    ∃ action ∈ rangeActions setting around query, Requires setting range action := by
  have joined : ∀ (visible : Visible) (joins : List (Join α)),
      range ∈ rangesOf (joinsActions setting visible joins) →
      ∃ action ∈ joinsActions setting visible joins, Requires setting range action := by
    intro visible joins
    induction joins generalizing visible with
    | nil => exact fun none => nomatch none
    | cons join rest ih =>
      rw [joinsActions, rangesOf_append, rangesOf_joinActions]
      intro among
      rcases List.mem_cons.mp among with rfl | further
      · cases target : join.target with
        | path path =>
          refine ⟨.expectEntity visible path, ?_, .led ?_⟩
          · simp [joinActions, target, targetActions]
          · exact congrArg (entityOf setting visible) target
        | entity entity =>
          refine ⟨.require join.name entity, ?_, .named ?_⟩
          · simp [joinActions, target, targetActions]
          · exact congrArg (entityOf setting visible) target
      · obtain ⟨action, listed, requires⟩ := ih _ further
        exact ⟨action, List.mem_append_right _ listed, requires⟩
  rcases List.mem_cons.mp member with rfl | further
  · exact ⟨_, List.mem_cons_self, .named rfl⟩
  · obtain ⟨action, listed, requires⟩ := joined _ query.joins further
    exact ⟨action, List.mem_cons_of_mem _ (List.mem_cons_of_mem _ listed), requires⟩

theorem exists_requires (query : Query) (around : Visible) :
    ∀ range ∈ rangesOf (queryActions setting query around),
      ∃ action ∈ queryActions setting query around, Requires setting range action := by
  induction size : query.nesting using Nat.strongRecOn generalizing query around with
  | ind size ih =>
    rw [rangesOf_queryActions]
    refine List.forall_mem_append.mpr ⟨fun range member => ?_, fun range member => ?_⟩
    · obtain ⟨action, listed, requires⟩ := exists_requires_rangeActions member
      exact ⟨action, mem_queryActions.mpr (.inl listed), requires⟩
    · obtain ⟨inner, among, found⟩ := List.mem_flatMap.mp member
      obtain ⟨action, listed, requires⟩ :=
        ih inner.nesting (size ▸ Query.nesting_lt among) inner _ rfl range found
      exact ⟨action, queryActions_subset among around listed, requires⟩

theorem performAll_mem {actions : List Action} {before after : Found}
    (run : (performAll setting actions).run before = .ok ((), after)) :
    ∀ action ∈ actions, ∃ reached left, (perform setting action).run reached = .ok ((), left) := by
  induction actions generalizing before with
  | nil => exact fun _ none => nomatch none
  | cons first rest ih =>
    rw [performAll_cons, StateT.run_bind] at run
    obtain ⟨⟨⟨⟩, between⟩, here, others⟩ := ok_of_bind run
    exact List.forall_mem_cons.mpr ⟨⟨before, between, here⟩, ih others⟩

end Binding

/-- The catalog knows the entities of all ranges. -/
theorem Model.ofTree_entities {schema : Schema} {query : Query} {parameters : ParameterMap}
    {applied : List String} {injected : List (String × String)} {model : Model}
    (result : ofTree schema query parameters applied injected = .ok model) :
    ∀ range ∈ model.ranges, ∃ entity, schema.entity? range.entity = some entity := by
  intro range member
  rw [ofTree_ranges result] at member
  obtain ⟨action, listed, requires⟩ := Binding.exists_requires query _ range member
  obtain ⟨⟨⟨⟩, found⟩, run, _⟩ := ok_of_bind result
  rw [Binding.bindQuery_eq] at run
  obtain ⟨before, after, performed⟩ := Binding.performAll_mem run action listed
  exact requires.known performed

/-! ### The ranges of joins -/

namespace Binding

variable {setting : Setting}

theorem mem_rangesOf {range : BoundRange} {actions : List Action}
    (member : .declare range ∈ actions) : range ∈ rangesOf actions :=
  List.mem_filterMap.mpr ⟨_, member, rfl⟩

end Binding

namespace Model

open Binding

/-- The range of a join along a path stands for the entities that the path leads to. -/
theorem ofTree_join {schema : Schema} {query : Query} {parameters : ParameterMap}
    {applied : List String} {injected : List (String × String)} {model : Model}
    (result : ofTree schema query parameters applied injected = .ok model)
    {before after : List (Join Predicate)} {join : Join Predicate} {path : Path}
    (split : query.joins = before ++ join :: after) (target : join.target = .path path) :
    ∃ start ∈ model.ranges, ∃ range ∈ model.ranges, ∃ navigation,
      start.name = path.root.value ∧ range.name = join.name.value ∧
        model.navigation? path = some navigation ∧
        schema.navigate start.entity path.attributeNames = .ok navigation ∧
        navigation.entity? = some range.entity := by
  let setting : Setting := ⟨schema, injected⟩
  let seen := afterJoins setting
    (Visible.extend ⟨[], 0⟩ (rootRange setting ⟨[], 0⟩ query)) before
  have all : joinActions setting seen join ⊆ queryActions setting query ⟨[], 0⟩ := by
    intro action listed
    refine mem_queryActions.mpr (.inl ?_)
    rw [rangeActions, split]
    exact List.mem_cons_of_mem _ (List.mem_cons_of_mem _ (joinActions_subset _ _ _ _ listed))
  have follows : .follow seen path ∈ queryActions setting query ⟨[], 0⟩ :=
    all (by simp [joinActions, target, targetActions])
  have expects : .expectEntity seen path ∈ queryActions setting query ⟨[], 0⟩ :=
    all (by simp [joinActions, target, targetActions])
  have declares : .declare (joinRange setting seen join) ∈ queryActions setting query ⟨[], 0⟩ :=
    all (by simp [joinActions])
  obtain ⟨navigation, leads, known⟩ := navigation?_of_follow result follows
  obtain ⟨start, among, named, _, navigates⟩ := resolve_range result follows leads
  have member := mem_rangesOf declares
  rw [← ofTree_ranges result] at member
  refine ⟨start, among, _, member, navigation, named, rfl, known, navigates, ?_⟩
  obtain ⟨⟨⟨⟩, found⟩, run, _⟩ := ok_of_bind result
  rw [bindQuery_eq] at run
  obtain ⟨reached, left, performed⟩ := performAll_mem run _ expects
  have resolved : resolve setting.schema seen path = .ok navigation := leads
  have ends := entity?_of_expected resolved performed
  have entity : (joinRange setting seen join).entity = entityOf setting seen (.path path) :=
    congrArg (entityOf setting seen) target
  rw [ends, entity]

end Model

end QueryGuard
