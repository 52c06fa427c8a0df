import QueryGuard.Proofs.Binding.Actions
import QueryGuard.Proofs.Rewriting.Replacement
/-!
The ranges of a bound query are those that its levels declare, in the order of the text, and the
paths that it knows are those that were followed.
-/

set_option autoImplicit false

namespace QueryGuard

namespace Binding

variable {setting : Setting}

/-- The ranges that actions add. -/
def rangesOf (actions : List Action) : List BoundRange := actions.filterMap Action.range?

/-- What performing actions does to what is known: their ranges are added, whose names are new, and
what their paths lead to is kept. -/
structure Performed (setting : Setting) (actions : List Action) (before after : Found) : Prop where
  ranges : after.ranges = before.ranges ++ rangesOf actions
  distinct : (before.ranges.map (·.name)).Nodup → (after.ranges.map (·.name)).Nodup
  kept : ∀ entry ∈ before.navigations, entry ∈ after.navigations
  followed : ∀ visible path, .follow visible path ∈ actions →
    path.key ∈ after.navigations.map (·.1) ∧
      ∃ navigation, resolve setting.schema visible path = .ok navigation
  led : ∀ entry ∈ after.navigations, entry ∈ before.navigations ∨
    ∃ visible path, .follow visible path ∈ actions ∧ path.key = entry.1 ∧
      resolve setting.schema visible path = .ok entry.2

theorem rangesOf_append (first rest : List Action) :
    rangesOf (first ++ rest) = rangesOf first ++ rangesOf rest :=
  List.filterMap_append

theorem rangesOf_flatMap {α : Type} (items : List α) (actions : α → List Action) :
    rangesOf (items.flatMap actions) = items.flatMap fun item => rangesOf (actions item) :=
  List.filterMap_flatMap

namespace Performed

theorem nil (found : Found) : Performed setting [] found found :=
  ⟨(List.append_nil _).symm, id, fun _ => id, by simp, fun _ => .inl⟩

theorem append {first rest : List Action} {before between after : Found}
    (start : Performed setting first before between)
    (others : Performed setting rest between after) :
    Performed setting (first ++ rest) before after := by
  refine ⟨?_, others.distinct ∘ start.distinct, fun entry => others.kept entry ∘ start.kept entry,
    ?_, ?_⟩
  · rw [others.ranges, start.ranges, rangesOf_append, List.append_assoc]
  · intro visible path member
    rcases List.mem_append.mp member with member | member
    · obtain ⟨known, leads⟩ := start.followed visible path member
      obtain ⟨entry, among, same⟩ := List.mem_map.mp known
      exact ⟨List.mem_map.mpr ⟨entry, others.kept entry among, same⟩, leads⟩
    · exact others.followed visible path member
  · intro entry member
    rcases others.led entry member with among | ⟨visible, path, among, leads⟩
    · rcases start.led entry among with old | ⟨visible, path, among, leads⟩
      · exact .inl old
      · exact .inr ⟨visible, path, List.mem_append_left _ among, leads⟩
    · exact .inr ⟨visible, path, List.mem_append_right _ among, leads⟩

/-- An action that neither adds a range nor follows a path. -/
theorem idle {action : Action} {before after : Found} (none : action.range? = none)
    (other : ∀ visible path, action ≠ .follow visible path) (ranges : after.ranges = before.ranges)
    (navigations : after.navigations = before.navigations) :
    Performed setting [action] before after := by
  refine ⟨?_, ?_, ?_, ?_, ?_⟩
  · rw [ranges, rangesOf, List.filterMap_cons_none none, List.filterMap_nil, List.append_nil]
  · rw [ranges]
    exact id
  · rw [navigations]
    exact fun _ => id
  · intro visible path member
    exact absurd (List.mem_singleton.mp member).symm (other visible path)
  · rw [navigations]
    exact fun _ => .inl

theorem follow {visible : Visible} {path : Path} {navigation : Navigation}
    (leads : resolve setting.schema visible path = .ok navigation) (found : Found) :
    Performed setting [.follow visible path] found (found.keep path.key navigation) := by
  have only : ∀ visible' path', .follow visible' path' ∈ [Action.follow visible path] →
      path'.key = path.key ∧ ∃ navigation, resolve setting.schema visible' path' = .ok navigation := by
    intro visible' path' member
    obtain ⟨rfl, rfl⟩ := Action.follow.inj (List.mem_singleton.mp member)
    exact ⟨rfl, navigation, leads⟩
  unfold Found.keep
  split
  · rename_i known
    refine ⟨(List.append_nil _).symm, id, fun _ => id, fun visible' path' member => ?_, fun _ => .inl⟩
    obtain ⟨same, leads⟩ := only visible' path' member
    obtain ⟨entry, among, key⟩ := List.any_eq_true.mp known
    exact ⟨List.mem_map.mpr ⟨entry, among, (of_decide_eq_true key).trans same.symm⟩, leads⟩
  · refine ⟨(List.append_nil _).symm, id, fun entry => List.mem_append_left _,
      fun visible' path' member => ?_, fun entry member => ?_⟩
    · obtain ⟨same, leads⟩ := only visible' path' member
      rw [List.map_append, same]
      exact ⟨List.mem_append_right _ List.mem_cons_self, leads⟩
    · refine (List.mem_append.mp member).imp id fun added => ?_
      rw [List.mem_singleton.mp added]
      exact ⟨visible, path, List.mem_cons_self, rfl, leads⟩

theorem declare {range : BoundRange} {found : Found}
    (new : ¬ found.ranges.any (·.name = range.name)) :
    Performed setting [.declare range] found { found with ranges := found.ranges ++ [range] } := by
  refine ⟨rfl, fun distinct => ?_, fun _ => id, by simp, fun _ => .inl⟩
  rw [List.map_append, List.nodup_append]
  refine ⟨distinct, List.pairwise_singleton _ _, fun name member other only same => new ?_⟩
  obtain ⟨old, among, rfl⟩ := List.mem_map.mp member
  rw [List.mem_singleton.mp only] at same
  exact List.any_eq_true.mpr ⟨old, among, decide_eq_true same⟩

end Performed

theorem perform_ok {action : Action} {before after : Found}
    (run : (perform setting action).run before = .ok ((), after)) :
    Performed setting [action] before after := by
  cases action with
  | require name entity =>
    rw [perform, requireEntity] at run
    split at run
    · cases run
    · cases run
      exact .idle rfl (by simp) rfl rfl
  | follow visible path =>
    cases leads : resolve setting.schema visible path with
    | error error =>
      rw [perform, StateT.run_bind, bindPath_error leads] at run
      cases run
    | ok navigation =>
      rw [perform, StateT.run_bind, bindPath_ok leads] at run
      cases run
      exact .follow leads before
  | expectEntity visible path =>
    cases leads : resolve setting.schema visible path with
    | error error =>
      rw [perform, leads] at run
      cases run
    | ok navigation =>
      rw [perform_expectEntity_run leads] at run
      split at run
      · cases run
      · cases run
        exact .idle rfl (by simp) rfl rfl
  | note visible parameter path =>
    cases leads : resolve setting.schema visible path with
    | error error =>
      rw [perform, noteType, leads] at run
      cases run
    | ok navigation =>
      rw [perform_note_run leads] at run
      cases run
      exact .idle rfl (by simp) rfl rfl
  | declare range =>
    by_cases taken : before.ranges.any (·.name = range.name)
    · rw [perform_declare_taken taken] at run
      cases run
    · rw [perform_declare_new taken] at run
      cases run
      exact .declare taken

theorem performAll_ok {actions : List Action} {before after : Found}
    (run : (performAll setting actions).run before = .ok ((), after)) :
    Performed setting actions before after := by
  induction actions generalizing before with
  | nil =>
    cases run
    exact .nil _
  | cons action rest ih =>
    rw [performAll_cons, StateT.run_bind] at run
    obtain ⟨⟨⟨⟩, between⟩, first, others⟩ := ok_of_bind run
    exact (perform_ok first).append (ih others)

/-! ### Aliases in use -/

theorem resolve_error {schema : Schema} {visible : Visible} {path : Path} {error : QueryError}
    (fails : resolve schema visible path = .error error) :
    ∃ reason, error = unresolved path reason := by
  unfold resolve at fails
  split at fails
  · exact ⟨_, (Except.error.inj fails).symm⟩
  · split at fails
    · cases fails
    · exact ⟨_, (Except.error.inj fails).symm⟩

/-- Where a path leads depends on the entity that it starts at and on the names of its attributes only. -/
theorem resolve_congr {schema : Schema} {visible visible' : Visible} {path path' : Path}
    (start : visible'.entities.lookup path'.root.value = visible.entities.lookup path.root.value)
    (attributes : path'.attributeNames = path.attributeNames) :
    (∃ navigation, resolve schema visible path = .ok navigation ∧
      resolve schema visible' path' = .ok navigation) ∨
    ∃ error error', resolve schema visible path = .error error ∧
      resolve schema visible' path' = .error error' := by
  rw [resolve, resolve, start, attributes]
  cases visible.entities.lookup path.root.value with
  | none => exact .inr ⟨_, _, rfl, rfl⟩
  | some entity =>
    dsimp only
    cases schema.navigate entity path.attributeNames with
    | ok navigation => exact .inl ⟨navigation, rfl, rfl⟩
    | error error => exact .inr ⟨_, _, rfl, rfl⟩

theorem resolve_congr_iff {schema : Schema} {visible visible' : Visible} {path path' : Path}
    (start : visible'.entities.lookup path'.root.value = visible.entities.lookup path.root.value)
    (attributes : path'.attributeNames = path.attributeNames) (navigation : Navigation) :
    resolve schema visible' path' = .ok navigation ↔
      resolve schema visible path = .ok navigation := by
  rcases resolve_congr start attributes with ⟨_, leads, leads'⟩ | ⟨_, _, fails, fails'⟩
  · rw [leads, leads']
  · rw [fails, fails']
    exact ⟨nofun, nofun⟩

/-- Only adding a range fails because an alias is in use. -/
theorem perform_collides {action : Action} {before : Found} {name : String} {span : Span}
    (run : (perform setting action).run before = .error (.aliasCollision name span)) :
    ∃ range, action = .declare range ∧ before.ranges.any (·.name = range.name) := by
  have failing : ∀ {visible path error}, resolve setting.schema visible path = .error error →
      error ≠ .aliasCollision name span := by
    intro visible path error fails same
    obtain ⟨reason, unresolved⟩ := resolve_error fails
    cases unresolved.symm.trans same
  cases action with
  | require name entity =>
    rw [perform, requireEntity] at run
    split at run
    · cases run
    · cases run
  | follow visible path =>
    cases leads : resolve setting.schema visible path with
    | error error =>
      rw [perform, StateT.run_bind, bindPath_error leads] at run
      exact absurd (Except.error.inj run) (failing leads)
    | ok navigation =>
      rw [perform, StateT.run_bind, bindPath_ok leads] at run
      cases run
  | expectEntity visible path =>
    cases leads : resolve setting.schema visible path with
    | error error =>
      rw [perform, leads] at run
      exact absurd (Except.error.inj run) (failing leads)
    | ok navigation =>
      rw [perform_expectEntity_run leads] at run
      split at run
      · cases run
      · cases run
  | note visible parameter path =>
    cases leads : resolve setting.schema visible path with
    | error error =>
      rw [perform, noteType, leads] at run
      exact absurd (Except.error.inj run) (failing leads)
    | ok navigation =>
      rw [perform_note_run leads] at run
      cases run
  | declare range =>
    by_cases taken : before.ranges.any (·.name = range.name)
    · exact ⟨range, rfl, taken⟩
    · rw [perform_declare_new taken] at run
      cases run

/-- An alias is in use only if two ranges have the same one. -/
theorem performAll_collides {actions : List Action} {before : Found} {name : String} {span : Span}
    (run : (performAll setting actions).run before = .error (.aliasCollision name span)) :
    ¬ ((before.ranges ++ rangesOf actions).map (·.name)).Nodup := by
  induction actions generalizing before with
  | nil => cases run
  | cons action rest ih =>
    rw [performAll_cons, StateT.run_bind] at run
    rw [← List.singleton_append, rangesOf_append, ← List.append_assoc]
    cases first : (perform setting action).run before with
    | error error =>
      rw [first] at run
      obtain rfl := Except.error.inj run
      obtain ⟨range, rfl, taken⟩ := perform_collides first
      intro distinct
      obtain ⟨old, among, same⟩ := List.any_eq_true.mp taken
      rw [List.map_append, List.map_append, List.append_assoc, List.nodup_append] at distinct
      refine distinct.2.2 old.name (List.mem_map_of_mem among) range.name ?_ (of_decide_eq_true same)
      exact List.mem_append_left _ List.mem_cons_self
    | ok reached =>
      rw [first] at run
      have others := ih run
      rwa [(perform_ok first).ranges] at others

/-! ### The ranges of a tree -/

theorem rangesOf_exprActions (visible : Visible) (expr : Expr) :
    rangesOf (exprActions visible expr) = [] := by
  rw [rangesOf, exprActions, List.filterMap_map]
  exact List.filterMap_eq_nil_iff.mpr fun path _ => rfl

theorem rangesOf_exprs {α : Type} (visible : Visible) (items : List α) (expr : α → Expr) :
    items.flatMap (fun item => rangesOf (exprActions visible (expr item))) = [] :=
  List.flatMap_eq_nil_iff.mpr fun item _ => rangesOf_exprActions visible (expr item)

theorem rangesOf_testActions (visible : Visible) (test : Test) :
    rangesOf (testActions visible test) = [] := by
  have noted : ∀ compared, rangesOf (noteActions visible compared) = [] := by
    intro compared
    unfold noteActions
    split
    · rfl
    · rfl
  rw [testActions, rangesOf_append, rangesOf_flatMap, rangesOf_flatMap,
    List.flatMap_eq_nil_iff.mpr fun expr _ => rangesOf_exprActions visible expr,
    List.flatMap_eq_nil_iff.mpr fun compared _ => noted compared, List.append_nil]

theorem rangesOf_targetActions (visible : Visible) (name : Name) (target : JoinTarget) :
    rangesOf (targetActions visible name target) = [] := by
  cases target <;> rfl

/-- The ranges of a condition are those of the queries inside it. -/
theorem rangesOf_conditionActions (condition : Predicate) (visible : Visible) :
    rangesOf (conditionActions setting condition visible) =
      condition.subqueries.flatMap fun inner =>
        rangesOf (queryActions setting inner visible.inside) := by
  have all : ∀ operands : List Predicate, (∀ operand ∈ operands,
      rangesOf (conditionActions setting operand visible) =
        operand.subqueries.flatMap fun inner =>
          rangesOf (queryActions setting inner visible.inside)) →
      rangesOf (operands.flatMap (conditionActions setting · visible)) =
        (operands.flatMap Predicate.subqueries).flatMap fun inner =>
          rangesOf (queryActions setting inner visible.inside) := by
    intro operands each
    rw [rangesOf_flatMap, List.flatMap_assoc]
    exact List.flatMap_congr each
  induction condition using Predicate.induction with
  | and operands ih =>
    rw [conditionActions_and, Predicate.subqueries_and]
    exact all operands ih
  | or operands ih =>
    rw [conditionActions_or, Predicate.subqueries_or]
    exact all operands ih
  | not operand ih => exact ih
  | group operand ih => exact ih
  | test test => exact rangesOf_testActions visible test
  | inQuery tested query negated =>
    rw [conditionActions_inQuery, rangesOf_append, rangesOf_exprActions]
    exact (List.append_nil _).symm
  | existsIn query negated =>
    rw [conditionActions_existsIn]
    exact (List.append_nil _).symm

/-- A level adds its own ranges, and then those of the queries inside its conditions. -/
theorem rangesOf_queryActions (query : Query) (around : Visible) :
    rangesOf (queryActions setting query around) =
      rangesOf (rangeActions setting around query) ++ query.subqueries.flatMap fun inner =>
        rangesOf (queryActions setting inner (levelVisible setting around query).inside) := by
  rw [queryActions_eq, Query.subqueries, List.flatMap_assoc]
  generalize levelVisible setting around query = visible
  have grouped : query.groupBy.flatMap (fun expr => rangesOf (exprActions visible expr)) = [] :=
    rangesOf_exprs visible query.groupBy id
  simp only [rangesOf_append, rangesOf_flatMap, rangesOf_exprs, grouped, rangesOf_conditionActions,
    Select.flatMap_conditions, List.nil_append, List.append_nil, List.append_assoc]

/-- What holds of the ranges that a level declares itself holds of all ranges. -/
theorem forall_rangesOf {P : BoundRange → Prop}
    (own : ∀ (around : Visible) (query : Query),
      ∀ range ∈ rangesOf (rangeActions setting around query), P range)
    (query : Query) (around : Visible) :
    ∀ range ∈ rangesOf (queryActions setting query around), P range := by
  induction size : query.nesting using Nat.strongRecOn generalizing query around with
  | ind size ih =>
    rw [rangesOf_queryActions]
    refine List.forall_mem_append.mpr ⟨own around query, fun range member => ?_⟩
    obtain ⟨inner, among, found⟩ := List.mem_flatMap.mp member
    exact ih inner.nesting (size ▸ Query.nesting_lt among) inner _ rfl range found

/-- The ranges of a level have its aliases. -/
theorem names_rangeActions {α : Type} (around : Visible) (query : Select α) :
    (rangesOf (rangeActions setting around query)).map (·.name) =
      query.aliases.map (·.value) := by
  have joined : ∀ (visible : Visible) (joins : List (Join α)),
      (rangesOf (joinsActions setting visible joins)).map (·.name) =
        joins.map (·.name.value) := by
    intro visible joins
    induction joins generalizing visible with
    | nil => rfl
    | cons join rest ih =>
      rw [joinsActions, joinActions, rangesOf_append, rangesOf_append, rangesOf_targetActions,
        List.nil_append, List.map_append, ih]
      rfl
  rw [Select.aliases, List.map_cons, List.map_map, rangeActions]
  exact congrArg (_ :: ·) (joined _ query.joins)

theorem names_queryActions (query : Query) (around : Visible) :
    (rangesOf (queryActions setting query around)).map (·.name) = query.allAliases := by
  induction size : query.nesting using Nat.strongRecOn generalizing query around with
  | ind size ih =>
    rw [rangesOf_queryActions, List.map_append, names_rangeActions,
      Query.allAliases_eq_subqueries, List.map_flatMap]
    refine congrArg (_ ++ ·) (List.flatMap_congr fun inner member => ?_)
    exact ih inner.nesting (size ▸ Query.nesting_lt member) inner _ rfl

theorem depth_afterJoins {α : Type} (visible : Visible) (joins : List (Join α)) :
    (afterJoins setting visible joins).depth = visible.depth := by
  induction joins generalizing visible with
  | nil => rfl
  | cons join rest ih => exact ih _

theorem depth_levelVisible {α : Type} (around : Visible) (query : Select α) :
    (levelVisible setting around query).depth = around.depth :=
  depth_afterJoins _ query.joins

/-- A level declares a range for its root and one for each of its joins. -/
theorem mem_rangeActions {α : Type} {around : Visible} {query : Select α} {range : BoundRange}
    (member : range ∈ rangesOf (rangeActions setting around query)) :
    ∃ visible entity, visible.depth = around.depth ∧
      (range = rangeOf setting visible query.root.name entity .root ∨
        ∃ join ∈ query.joins, range = rangeOf setting visible join.name entity (.joined join.kind)) := by
  have joined : ∀ (visible : Visible) (joins : List (Join α)),
      range ∈ rangesOf (joinsActions setting visible joins) →
      ∃ seen entity, seen.depth = visible.depth ∧
        ∃ join ∈ joins, range = rangeOf setting seen join.name entity (.joined join.kind) := by
    intro visible joins
    induction joins generalizing visible with
    | nil => exact fun none => nomatch none
    | cons join rest ih =>
      rw [joinsActions, joinActions, rangesOf_append, rangesOf_append, rangesOf_targetActions]
      intro among
      rcases List.mem_cons.mp among with rfl | further
      · exact ⟨visible, _, rfl, join, List.mem_cons_self, rfl⟩
      · obtain ⟨seen, entity, depth, other, listed, same⟩ := ih _ further
        exact ⟨seen, entity, depth, other, List.mem_cons_of_mem _ listed, same⟩
  rcases List.mem_cons.mp member with rfl | further
  · exact ⟨around, _, rfl, .inl rfl⟩
  · obtain ⟨seen, entity, depth, found⟩ := joined _ query.joins further
    exact ⟨seen, entity, depth, .inr found⟩

/-- A level declares a range for each of its aliases. -/
theorem exists_rangeActions (setting : Setting) {α : Type} (around : Visible) {query : Select α}
    {name : String} (listed : name ∈ query.aliases.map (·.value)) :
    ∃ range ∈ rangesOf (rangeActions setting around query),
      range.name = name ∧ range.depth = around.depth := by
  have names : (rangesOf (rangeActions setting around query)).map (·.name) =
      query.aliases.map (·.value) := names_rangeActions around query
  obtain ⟨range, found, named⟩ := List.mem_map.mp (names ▸ listed)
  obtain ⟨_, _, depth, rfl | ⟨_, _, rfl⟩⟩ := mem_rangeActions found
  · exact ⟨_, found, named, depth⟩
  · exact ⟨_, found, named, depth⟩

theorem injectedBy_queryActions (query : Query) (around : Visible) :
    ∀ range ∈ rangesOf (queryActions setting query around),
      range.injectedBy = setting.injected.lookup range.name := by
  refine forall_rangesOf (fun around query range member => ?_) query around
  obtain ⟨visible, entity, _, rfl | ⟨join, _, rfl⟩⟩ := mem_rangeActions member
  · rfl
  · rfl

/-- The ranges of a query are not further outside than the query. -/
theorem depth_queryActions (query : Query) (around : Visible) :
    ∀ range ∈ rangesOf (queryActions setting query around), around.depth ≤ range.depth := by
  induction size : query.nesting using Nat.strongRecOn generalizing query around with
  | ind size ih =>
    rw [rangesOf_queryActions]
    refine List.forall_mem_append.mpr ⟨fun range member => ?_, fun range member => ?_⟩
    · obtain ⟨visible, entity, depth, rfl | ⟨join, _, rfl⟩⟩ := mem_rangeActions member
      · exact Nat.le_of_eq depth.symm
      · exact Nat.le_of_eq depth.symm
    · obtain ⟨inner, among, found⟩ := List.mem_flatMap.mp member
      have below := ih inner.nesting (size ▸ Query.nesting_lt among) inner _ rfl range found
      rw [Visible.inside, depth_levelVisible] at below
      exact Nat.le_of_succ_le below

/-- A range is the root of the query, or a joined one, or one of a query inside, which is further inside
than the query. -/
theorem queryActions_cases {query : Query} {around : Visible} {range : BoundRange}
    (member : range ∈ rangesOf (queryActions setting query around)) :
    range.name = query.root.name.value ∨
      (range.role ≠ .root ∧ ∃ join ∈ query.joins, range.name = join.name.value) ∨
      (around.depth < range.depth ∧ ∃ inner ∈ query.subqueries,
        range ∈ rangesOf
          (queryActions setting inner (levelVisible setting around query).inside)) := by
  rw [rangesOf_queryActions] at member
  rcases List.mem_append.mp member with own | further
  · obtain ⟨_, _, _, rfl | ⟨join, among, rfl⟩⟩ := mem_rangeActions own
    · exact .inl rfl
    · exact .inr (.inl ⟨nofun, join, among, rfl⟩)
  · obtain ⟨inner, among, found⟩ := List.mem_flatMap.mp further
    have deep := depth_queryActions inner _ range found
    rw [Visible.inside, depth_levelVisible] at deep
    exact .inr (.inr ⟨deep, inner, among, found⟩)

end Binding

namespace Model

variable {schema : Schema} {query : Query} {parameters : ParameterMap} {applied : List String}
  {injected : List (String × String)} {model : Model}

/-- The model of a tree is what performing its actions leaves, and the types noted on the way are
given to the parameters. -/
theorem ofTree_performed (result : ofTree schema query parameters applied injected = .ok model) :
    ∃ found, Binding.Performed ⟨schema, injected⟩
        (Binding.queryActions ⟨schema, injected⟩ query ⟨[], 0⟩) ⟨[], [], []⟩ found ∧
      model = ⟨query, found.ranges, found.navigations, found.types.foldl
        (fun parameters (name, type) => parameters.setType name type) parameters, applied⟩ := by
  obtain ⟨⟨⟨⟩, found⟩, run, returned⟩ := ok_of_bind result
  rw [Binding.bindQuery_eq] at run
  exact ⟨found, Binding.performAll_ok run, (Except.ok.inj returned).symm⟩

theorem ofTree_ranges (result : ofTree schema query parameters applied injected = .ok model) :
    model.ranges =
      Binding.rangesOf (Binding.queryActions ⟨schema, injected⟩ query ⟨[], 0⟩) := by
  obtain ⟨found, performed, rfl⟩ := ofTree_performed result
  exact performed.ranges

/-- A bound query has a range for each of its aliases, in their order, and none from a criterion. -/
theorem bind_ranges {bound : Model} (result : Model.bind schema query parameters = .ok bound) :
    bound.query = query.separateSiblings ∧ bound.applied = [] ∧
      bound.aliases = bound.query.allAliases ∧
      ∀ range ∈ bound.ranges, range.injectedBy = none := by
  have ranges := ofTree_ranges result
  obtain ⟨found, _, rfl⟩ := ofTree_performed result
  refine ⟨rfl, rfl, ?_, fun range member => ?_⟩
  · exact (congrArg (List.map (·.name)) ranges).trans (Binding.names_queryActions _ _)
  · rw [ranges] at member
    exact Binding.injectedBy_queryActions _ _ range member

end Model

end QueryGuard
