import Mathlib.Data.List.Nodup
import QueryGuard.Proofs.Binding.Sites
import QueryGuard.Proofs.Parameters
/-!
What the paths of a bound query lead to: each of them starts at a range that is visible to it, and
the model knows where the catalog leads from there.
-/

set_option autoImplicit false

namespace QueryGuard

namespace Binding

/-- Ranges as they are seen by paths. -/
def entries (ranges : List BoundRange) : List (String × String) :=
  ranges.map fun range => (range.name, range.entity)

/-- The visible aliases, the innermost first. -/
def Visible.names (visible : Visible) : List String := visible.entities.map (·.1)

section

variable {setting : Setting}

theorem entries_append (first rest : List BoundRange) :
    entries (first ++ rest) = entries first ++ entries rest :=
  List.map_append

theorem rangesOf_subset {some all : List Action} (among : some ⊆ all) :
    rangesOf some ⊆ rangesOf all :=
  List.filterMap_subset _ among

/-! ### What is visible at a level -/

theorem rangesOf_joinActions {α : Type} (visible : Visible) (join : Join α) :
    rangesOf (joinActions setting visible join) = [joinRange setting visible join] := by
  rw [joinActions, rangesOf_append, rangesOf_targetActions]
  rfl

/-- Behind joins their ranges are visible, the last one first. -/
theorem afterJoins_entities {α : Type} (visible : Visible) (joins : List (Join α)) :
    (afterJoins setting visible joins).entities =
      (entries (rangesOf (joinsActions setting visible joins))).reverse ++ visible.entities := by
  induction joins generalizing visible with
  | nil => rfl
  | cons join rest ih =>
    rw [afterJoins, ih, joinsActions, rangesOf_append, rangesOf_joinActions, entries_append,
      List.reverse_append, List.append_assoc]
    rfl

theorem rangesOf_rangeActions {α : Type} (around : Visible) (query : Select α) :
    rangesOf (rangeActions setting around query) = rootRange setting around query ::
      rangesOf (joinsActions setting (around.extend (rootRange setting around query))
        query.joins) := rfl

theorem levelVisible_entities {α : Type} (around : Visible) (query : Select α) :
    (levelVisible setting around query).entities =
      (entries (rangesOf (rangeActions setting around query))).reverse ++ around.entities := by
  rw [levelVisible, afterJoins_entities, rangesOf_rangeActions, entries, entries, List.map_cons,
    List.reverse_cons, List.append_assoc]
  rfl

theorem names_afterJoins {α : Type} (visible : Visible) (joins : List (Join α)) :
    (afterJoins setting visible joins).names =
      (joins.map (·.name.value)).reverse ++ visible.names := by
  induction joins generalizing visible with
  | nil => rfl
  | cons join rest ih =>
    rw [afterJoins, ih, List.map_cons, List.reverse_cons, List.append_assoc]
    rfl

theorem names_levelVisible {α : Type} (around : Visible) (query : Select α) :
    (levelVisible setting around query).names =
      (query.aliases.map (·.value)).reverse ++ around.names := by
  rw [levelVisible, names_afterJoins, Select.aliases, List.map_cons, List.map_map,
    List.reverse_cons, List.append_assoc]
  rfl

/-! ### Which paths are followed -/

theorem mem_exprActions {visible seen : Visible} {path : Path} {expr : Expr} :
    .follow seen path ∈ exprActions visible expr ↔ seen = visible ∧ path ∈ expr.paths := by
  rw [exprActions, List.mem_map]
  constructor
  · rintro ⟨other, among, same⟩
    obtain ⟨rfl, rfl⟩ := Action.follow.inj same
    exact ⟨rfl, among⟩
  · rintro ⟨rfl, among⟩
    exact ⟨path, among, rfl⟩

theorem mem_testActions {visible seen : Visible} {path : Path} {test : Test} :
    .follow seen path ∈ testActions visible test ↔ seen = visible ∧ path ∈ test.paths := by
  have noted : ∀ compared, .follow seen path ∉ noteActions visible compared := by
    intro compared
    unfold noteActions
    split
    · simp
    · simp
  simp only [testActions, List.mem_append, List.mem_flatMap, mem_exprActions, noted, and_false,
    exists_false, or_false, Test.paths]
  constructor
  · rintro ⟨expr, among, rfl, found⟩
    exact ⟨rfl, expr, among, found⟩
  · rintro ⟨rfl, expr, among, found⟩
    exact ⟨expr, among, rfl, found⟩

/-- A condition follows its own paths from what is visible to it, and those of the queries inside
it. -/
theorem mem_conditionActions {visible seen : Visible} {path : Path} {condition : Predicate} :
    .follow seen path ∈ conditionActions setting condition visible ↔
      seen = visible ∧ path ∈ condition.levelPaths ∨
        ∃ inner ∈ condition.subqueries,
          .follow seen path ∈ queryActions setting inner visible.inside := by
  have all : ∀ operands : List Predicate, (∀ operand ∈ operands,
      (.follow seen path ∈ conditionActions setting operand visible ↔
        seen = visible ∧ path ∈ operand.levelPaths ∨ ∃ inner ∈ operand.subqueries,
          .follow seen path ∈ queryActions setting inner visible.inside)) →
      (.follow seen path ∈ operands.flatMap (conditionActions setting · visible) ↔
        seen = visible ∧ path ∈ operands.flatMap Predicate.levelPaths ∨
          ∃ inner ∈ operands.flatMap Predicate.subqueries,
            .follow seen path ∈ queryActions setting inner visible.inside) := by
    intro operands each
    induction operands with
    | nil => simp
    | cons operand rest ih =>
      have others := ih fun other member => each other (List.mem_cons_of_mem _ member)
      simp only [List.flatMap_cons, List.mem_append, each operand List.mem_cons_self, others]
      grind
  induction condition using Predicate.induction with
  | and operands ih =>
    rw [conditionActions_and, Predicate.levelPaths_and, Predicate.subqueries_and]
    exact all operands ih
  | or operands ih =>
    rw [conditionActions_or, Predicate.levelPaths_or, Predicate.subqueries_or]
    exact all operands ih
  | not operand ih => exact ih
  | group operand ih => exact ih
  | test test =>
    refine mem_testActions.trans ⟨.inl, fun found => ?_⟩
    rcases found with own | ⟨_, member, _⟩
    · exact own
    · cases member
  | inQuery tested query negated =>
    rw [conditionActions_inQuery, List.mem_append, mem_exprActions, Predicate.subqueries]
    simp only [List.mem_singleton, exists_eq_left]
    rfl
  | existsIn query negated =>
    rw [conditionActions_existsIn, Predicate.subqueries]
    simp only [List.mem_singleton, exists_eq_left, Predicate.levelPaths, Predicate.fold_existsIn,
      List.not_mem_nil, and_false, false_or]

/-- The actions of a query are those for its ranges, for its expressions, and for its conditions. -/
theorem mem_queryActions {query : Query} {around : Visible} {action : Action} :
    action ∈ queryActions setting query around ↔
      action ∈ rangeActions setting around query ∨
        (∃ expr ∈ query.exprs, action ∈ exprActions (levelVisible setting around query) expr) ∨
        ∃ condition ∈ query.conditions,
          action ∈ conditionActions setting condition (levelVisible setting around query) := by
  rw [queryActions_eq]
  simp only [Select.exprs, Select.conditions, List.mem_append, List.mem_flatMap, List.mem_map,
    List.mem_filterMap, Option.mem_toList]
  grind

theorem conditionActions_subset_and {operand : Predicate} {operands : List Predicate}
    (member : operand ∈ operands) (visible : Visible) :
    conditionActions setting operand visible ⊆ conditionActions setting (.and operands) visible := by
  rw [conditionActions_and]
  exact subset_flatMap (f := (conditionActions setting · visible)) member

theorem conditionActions_subset_or {operand : Predicate} {operands : List Predicate}
    (member : operand ∈ operands) (visible : Visible) :
    conditionActions setting operand visible ⊆ conditionActions setting (.or operands) visible := by
  rw [conditionActions_or]
  exact subset_flatMap (f := (conditionActions setting · visible)) member

theorem conditionActions_subset {condition : Predicate} {inner : Query}
    (member : inner ∈ condition.subqueries) (visible : Visible) :
    queryActions setting inner visible.inside ⊆ conditionActions setting condition visible := by
  induction member using Predicate.subqueries_induction with
  | and _ _ among _ ih => exact List.Subset.trans ih (conditionActions_subset_and among visible)
  | or _ _ among _ ih => exact List.Subset.trans ih (conditionActions_subset_or among visible)
  | not _ _ ih => exact ih
  | group _ _ ih => exact ih
  | inQuery tested negated =>
    rw [conditionActions_inQuery]
    exact List.subset_append_right _ _
  | existsIn negated =>
    rw [conditionActions_existsIn]
    exact List.Subset.refl _

theorem conditionActions_subset_queryActions {query : Query} {condition : Predicate}
    (member : condition ∈ query.conditions) (around : Visible) :
    conditionActions setting condition (levelVisible setting around query) ⊆
      queryActions setting query around :=
  fun _ done => mem_queryActions.mpr (.inr (.inr ⟨condition, member, done⟩))

theorem queryActions_subset {query inner : Query} (member : inner ∈ query.subqueries)
    (around : Visible) :
    queryActions setting inner (levelVisible setting around query).inside ⊆
      queryActions setting query around := by
  obtain ⟨condition, among, found⟩ := List.mem_flatMap.mp member
  exact List.Subset.trans (conditionActions_subset found _)
    (conditionActions_subset_queryActions among around)

/-- A query follows the paths of its joins, its other paths from what is visible at its level, and
those of the queries inside it. -/
theorem follow_mem_queryActions {query : Query} {around seen : Visible} {path : Path} :
    .follow seen path ∈ queryActions setting query around ↔
      .follow seen path ∈ rangeActions setting around query ∨
        seen = levelVisible setting around query ∧ path ∈ query.levelPaths ∨
        ∃ inner ∈ query.subqueries, .follow seen path ∈
          queryActions setting inner (levelVisible setting around query).inside := by
  rw [mem_queryActions]
  simp only [mem_exprActions, mem_conditionActions, Query.levelPaths, Query.subqueries,
    List.mem_append, List.mem_flatMap]
  grind

/-! ### What is visible to the paths that are followed -/

/-- A path of a join starts at a range before the join. -/
theorem follow_joinsActions {α : Type} {visible seen : Visible} {path : Path}
    {joins : List (Join α)} (member : .follow seen path ∈ joinsActions setting visible joins) :
    seen.entities ⊆
      entries (rangesOf (joinsActions setting visible joins)) ++ visible.entities := by
  induction joins generalizing visible with
  | nil => cases member
  | cons join rest ih =>
    rw [joinsActions, rangesOf_append, rangesOf_joinActions, entries_append, List.append_assoc]
    rw [joinsActions, joinActions] at member
    rcases List.mem_append.mp member with here | further
    · have same : seen = visible := by
        cases target : join.target <;> simp_all [targetActions]
      rw [same]
      exact fun entry listed => List.mem_append_right _ (List.mem_append_right _ listed)
    · intro entry listed
      have found := ih further listed
      simp only [Visible.extend, List.mem_append, List.mem_cons, entries, List.map_cons,
        List.map_nil] at found ⊢
      tauto

theorem follow_rangeActions {α : Type} {around seen : Visible} {path : Path} {query : Select α}
    (member : .follow seen path ∈ rangeActions setting around query) :
    seen.entities ⊆ entries (rangesOf (rangeActions setting around query)) ++ around.entities := by
  have joined : .follow seen path ∈
      joinsActions setting (around.extend (rootRange setting around query)) query.joins := by
    simpa [rangeActions] using member
  intro entry listed
  have found := follow_joinsActions joined listed
  simp only [rangesOf_rangeActions, entries, List.map_cons, Visible.extend, List.mem_append,
    List.mem_cons] at found ⊢
  tauto

/-- Every path is followed from ranges of the query, or from what is visible around it. -/
theorem follow_entities {query : Query} {around seen : Visible} {path : Path}
    (member : .follow seen path ∈ queryActions setting query around) :
    seen.entities ⊆ entries (rangesOf (queryActions setting query around)) ++ around.entities := by
  induction size : query.nesting using Nat.strongRecOn generalizing query around with
  | ind size ih =>
    have own : entries (rangesOf (rangeActions setting around query)) ⊆
        entries (rangesOf (queryActions setting query around)) :=
      List.map_subset _ (rangesOf_subset fun action listed => mem_queryActions.mpr (.inl listed))
    have level : (levelVisible setting around query).entities ⊆
        entries (rangesOf (queryActions setting query around)) ++ around.entities := by
      rw [levelVisible_entities]
      intro entry listed
      rcases List.mem_append.mp listed with here | outside
      · exact List.mem_append_left _ (own (List.mem_reverse.mp here))
      · exact List.mem_append_right _ outside
    rcases follow_mem_queryActions.mp member with joined | ⟨rfl, _⟩ | ⟨inner, among, below⟩
    · intro entry listed
      rcases List.mem_append.mp (follow_rangeActions joined listed) with here | outside
      · exact List.mem_append_left _ (own here)
      · exact List.mem_append_right _ outside
    · exact level
    · have found := ih inner.nesting (size ▸ Query.nesting_lt among) below rfl
      have nested : entries (rangesOf (queryActions setting inner _)) ⊆
          entries (rangesOf (queryActions setting query around)) :=
        List.map_subset _ (rangesOf_subset (queryActions_subset among around))
      intro entry listed
      rcases List.mem_append.mp (found listed) with here | outside
      · exact List.mem_append_left _ (nested here)
      · exact level outside

/-- The actions for a join are performed with the ranges before it in view. -/
theorem joinActions_subset {α : Type} (visible : Visible) (before after : List (Join α))
    (join : Join α) :
    joinActions setting (afterJoins setting visible before) join ⊆
      joinsActions setting visible (before ++ join :: after) := by
  induction before generalizing visible with
  | nil =>
    rw [List.nil_append, joinsActions]
    exact List.subset_append_left _ _
  | cons first rest ih =>
    rw [List.cons_append, joinsActions]
    exact List.Subset.trans (ih _) (List.subset_append_right _ _)

/-- The path of a join is followed from the ranges before it. -/
theorem follow_join {α : Type} (visible : Visible) {before after : List (Join α)} {join : Join α}
    {path : Path} (target : path ∈ join.target.paths) :
    .follow (afterJoins setting visible before) path ∈
      joinsActions setting visible (before ++ join :: after) := by
  refine joinActions_subset visible before after join (List.mem_append_left _ ?_)
  cases kind : join.target with
  | path chain =>
    rw [kind] at target
    rw [List.mem_singleton.mp target]
    exact List.mem_cons_self
  | entity name =>
    rw [kind] at target
    cases target

/-- Each path is followed from the aliases that are visible to it. -/
theorem exists_follow (query : Query) (around : Visible) :
    ∀ site ∈ query.sites, ∃ seen : Visible,
      .follow seen site.path ∈ queryActions setting query around ∧
        seen.names = site.visible.reverse ++ around.names := by
  induction size : query.nesting using Nat.strongRecOn generalizing query around with
  | ind size ih =>
    refine query.forall_sites (P := fun site => ∃ seen : Visible,
      .follow seen site.path ∈ queryActions setting query around ∧
        seen.names = site.visible.reverse ++ around.names)
      (fun path own => ?_) (fun before join after split path target => ?_)
      fun inner member site among => ?_
    · refine ⟨_, follow_mem_queryActions.mpr (.inr (.inl ⟨rfl, own⟩)), names_levelVisible _ _⟩
    · refine ⟨afterJoins setting (around.extend (rootRange setting around query)) before,
        follow_mem_queryActions.mpr (.inl ?_), ?_⟩
      · rw [rangeActions, split]
        exact List.mem_cons_of_mem _ (List.mem_cons_of_mem _ (follow_join _ target))
      · rw [names_afterJoins, List.reverse_cons, List.append_assoc]
        rfl
    · obtain ⟨seen, below, names⟩ :=
        ih inner.nesting (size ▸ Query.nesting_lt member) inner _ rfl site among
      refine ⟨seen, follow_mem_queryActions.mpr (.inr (.inr ⟨inner, member, below⟩)), ?_⟩
      have level : (levelVisible setting around query).names = _ := names_levelVisible around query
      rw [names, Site.inside, List.reverse_append, List.append_assoc, ← level]
      rfl

theorem resolve_ok {schema : Schema} {visible : Visible} {path : Path} {navigation : Navigation}
    (leads : resolve schema visible path = .ok navigation) :
    ∃ entity, visible.entities.lookup path.root.value = some entity ∧
      schema.navigate entity path.attributeNames = .ok navigation := by
  unfold resolve at leads
  split at leads
  · cases leads
  · rename_i entity found
    split at leads
    · rename_i other navigates
      cases leads
      exact ⟨entity, found, navigates⟩
    · cases leads

end

end Binding

namespace Model

open Binding

variable {schema : Schema} {query : Query} {parameters : ParameterMap} {applied : List String}
  {injected : List (String × String)} {model : Model}

/-- The aliases of a model are different. -/
theorem ofTree_nodup (result : ofTree schema query parameters applied injected = .ok model) :
    model.aliases.Nodup := by
  obtain ⟨found, performed, rfl⟩ := ofTree_performed result
  exact performed.distinct List.nodup_nil

theorem ofTree_aliases (result : ofTree schema query parameters applied injected = .ok model) :
    model.aliases = query.allAliases := by
  rw [aliases, ofTree_ranges result]
  exact names_queryActions query _

/-- An alias is in use only if the tree declares one twice. -/
theorem ofTree_collides {name : String} {span : Span}
    (fails : ofTree schema query parameters applied injected =
      .error (.aliasCollision name span)) : ¬ query.allAliases.Nodup := by
  cases run : (bindQuery ⟨schema, injected⟩ query).run ⟨[], [], []⟩ with
  | ok reached =>
    rw [ofTree, run] at fails
    cases fails
  | error error =>
    rw [ofTree, run] at fails
    obtain rfl := Except.error.inj fails
    rw [bindQuery_eq] at run
    have repeated := performAll_collides run
    rwa [List.nil_append, names_queryActions] at repeated

/-- A path is followed from the only range of its alias. -/
theorem resolve_range (result : ofTree schema query parameters applied injected = .ok model)
    {seen : Visible} {path : Path} {navigation : Navigation}
    (member : .follow seen path ∈ queryActions ⟨schema, injected⟩ query ⟨[], 0⟩)
    (leads : resolve schema seen path = .ok navigation) :
    ∃ range ∈ model.ranges, range.name = path.root.value ∧ range.name ∈ seen.names ∧
      schema.navigate range.entity path.attributeNames = .ok navigation := by
  obtain ⟨entity, found, navigates⟩ := resolve_ok leads
  have listed := mem_of_lookup found
  have among := follow_entities member listed
  rw [List.append_nil, ← ofTree_ranges result] at among
  obtain ⟨range, ofModel, same⟩ := List.mem_map.mp among
  obtain ⟨named, rfl⟩ := Prod.mk.inj same
  refine ⟨range, ofModel, named, ?_, navigates⟩
  rw [named]
  exact List.mem_map_of_mem (f := Prod.fst) listed

theorem eq_of_name (distinct : model.aliases.Nodup) {first second : BoundRange}
    (here : first ∈ model.ranges) (there : second ∈ model.ranges)
    (same : first.name = second.name) : first = second :=
  List.inj_on_of_nodup_map distinct here there same

/-- The model knows what every path leads to that was followed. -/
theorem navigation?_of_follow
    (result : ofTree schema query parameters applied injected = .ok model)
    {seen : Visible} {path : Path}
    (member : .follow seen path ∈ queryActions ⟨schema, injected⟩ query ⟨[], 0⟩) :
    ∃ navigation, resolve schema seen path = .ok navigation ∧
      model.navigation? path = some navigation := by
  obtain ⟨found, performed, same⟩ := ofTree_performed result
  obtain ⟨known, navigation, leads⟩ := performed.followed seen path member
  refine ⟨navigation, leads, ?_⟩
  cases kept : model.navigations.lookup path.key with
  | none =>
    obtain ⟨entry, among, key⟩ := List.mem_map.mp known
    have absent := List.lookup_eq_none_iff.mp kept entry (same ▸ among)
    simp [key] at absent
  | some other =>
    have listed := mem_of_lookup kept
    rw [same] at listed
    rcases performed.led _ listed with old | ⟨seen', path', member', key, leads'⟩
    · cases old
    · obtain ⟨range, among, named, _, navigates⟩ := resolve_range result member leads
      obtain ⟨range', among', named', _, navigates'⟩ := resolve_range result member' leads'
      obtain ⟨root, attributes⟩ := PathKey.mk.inj key
      obtain rfl := eq_of_name (ofTree_nodup result) among' among (named'.trans (root.trans named.symm))
      rw [attributes, navigates] at navigates'
      rw [Except.ok.inj navigates']
      exact kept

/-- Each path of the tree starts at a visible range, and the model knows what it leads to. -/
theorem ofTree_resolves (result : ofTree schema query parameters applied injected = .ok model) :
    ∀ site ∈ query.sites, ∃ range ∈ model.ranges,
      range.name = site.path.root.value ∧ range.name ∈ site.visible ∧
        ∃ navigation, model.navigation? site.path = some navigation ∧
          schema.navigate range.entity site.path.attributeNames = .ok navigation := by
  intro site member
  have follows : ∃ seen : Visible,
      .follow seen site.path ∈ queryActions ⟨schema, injected⟩ query ⟨[], 0⟩ ∧ _ :=
    exists_follow query ⟨[], 0⟩ site member
  obtain ⟨seen, followed, names⟩ := follows
  obtain ⟨navigation, leads, known⟩ := navigation?_of_follow result followed
  obtain ⟨range, among, named, visible, navigates⟩ := resolve_range result followed leads
  refine ⟨range, among, named, ?_, navigation, known, navigates⟩
  rw [names] at visible
  exact List.mem_reverse.mp ((List.mem_append.mp visible).resolve_right (nomatch ·))

end Model

end QueryGuard
