import QueryGuard.Proofs.Trees
import QueryGuard.Syntax.Renaming
/-!
What renaming does at each kind of node.
-/

set_option autoImplicit false

namespace QueryGuard

/-! ### Aliases -/

theorem Select.declares_iff {α : Type} (query : Select α) (name : String) :
    query.declares name = true ↔ name ∈ query.aliases.map (·.value) := by
  rw [declares, List.any_eq_true, List.mem_map]
  simp only [beq_iff_eq]

namespace Renaming

/-- Only old names are renamed. -/
theorem apply_not_mem {names : Renaming} {name : String} (absent : name ∉ names.map (·.1)) :
    names.apply name = name := by
  have none : List.lookup name names = none := by
    rw [List.lookup_eq_none_iff]
    intro entry member
    rw [bne_iff_ne]
    intro same
    exact absent (List.mem_map.mpr ⟨entry, member, same.symm⟩)
  rw [apply, none]
  rfl

theorem apply_cons_self (name new : String) (names : Renaming) :
    apply ((name, new) :: names) name = new := by
  rw [apply, List.lookup_cons_self]
  rfl

theorem apply_cons_ne {name old : String} (other : name ≠ old) (new : String) (names : Renaming) :
    apply ((old, new) :: names) name = names.apply name := by
  have unequal : (name == old) = false := beq_eq_false_iff_ne.mpr other
  rw [apply, List.lookup_cons, unequal]
  rfl

theorem lookup_filter (names : Renaming) (keep : String → Bool) (name : String) :
    List.lookup name (names.filter fun entry => keep entry.1) =
      if keep name then List.lookup name names else none := by
  induction names with
  | nil => exact (ite_self _).symm
  | cons entry rest ih =>
    obtain ⟨old, new⟩ := entry
    simp only [List.filter_cons]
    by_cases same : name = old
    · subst same
      by_cases kept : keep name
      · rw [if_pos kept, if_pos kept, List.lookup_cons_self, List.lookup_cons_self]
      · rw [if_neg kept, ih, if_neg kept, if_neg kept]
    · have unequal : (name == old) = false := beq_eq_false_iff_ne.mpr same
      rw [List.lookup_cons, unequal]
      by_cases kept : keep old
      · rw [if_pos kept, List.lookup_cons, unequal]
        exact ih
      · rw [if_neg kept]
        exact ih

/-- A query leaves the aliases alone that it declares itself. -/
theorem apply_inside {α : Type} (names : Renaming) (query : Select α) (name : String) :
    (names.inside query).apply name =
      if name ∈ query.aliases.map (·.value) then name else names.apply name := by
  have found := names.lookup_filter (fun old => !query.declares old) name
  rw [apply, inside]
  by_cases declared : name ∈ query.aliases.map (·.value)
  · rw [if_pos declared]
    rw [(query.declares_iff name).mpr declared] at found
    exact congrArg (·.getD name) found
  · rw [if_neg declared]
    have undeclared : query.declares name = false := by
      rw [Bool.eq_false_iff]
      exact fun holds => declared ((query.declares_iff name).mp holds)
    rw [undeclared] at found
    exact congrArg (·.getD name) found

end Renaming

/-! ### Expressions -/

theorem Expr.paths_call (name : Name) (arguments : List Expr) (span : Span) :
    (Expr.call name arguments span).paths = arguments.flatMap paths :=
  filterMap_leaves_call _ name arguments span

def Leaf.mapPath (f : Path → Path) : Leaf → Leaf
  | .path chain => .path (f chain)
  | leaf => leaf

theorem Expr.leaves_mapPaths (f : Path → Path) (expr : Expr) :
    (expr.mapPaths f).leaves = expr.leaves.map (Leaf.mapPath f) := by
  induction expr using Expr.induction with
  | path path => rfl
  | literal literal => rfl
  | parameter name => rfl
  | aggregate function distinct argument span ih => exact ih
  | call name arguments span ih =>
    have each : arguments.map (leaves ∘ mapPaths f) =
        arguments.map (List.map (Leaf.mapPath f) ∘ leaves) := List.map_congr_left ih
    rw [mapPaths, fold_call]
    change (Expr.call name (arguments.map (mapPaths f)) span).leaves = _
    rw [leaves, fold_call, fold_call, List.map_map, List.map_flatten, List.map_map]
    exact congrArg List.flatten each

theorem Expr.paths_mapPaths (f : Path → Path) (expr : Expr) :
    (expr.mapPaths f).paths = expr.paths.map f := by
  rw [paths, paths, leaves_mapPaths, List.filterMap_map, List.map_filterMap]
  refine congrArg (List.filterMap · expr.leaves) (funext fun leaf => ?_)
  cases leaf <;> rfl

theorem Test.exprs_mapExprs (f : Expr → Expr) (test : Test) :
    (test.mapExprs f).exprs = test.exprs.map f := by
  cases test <;> rfl

theorem Test.paths_mapExprs (f : Path → Path) (test : Test) :
    (test.mapExprs (Expr.mapPaths f)).paths = test.paths.map f := by
  rw [paths, paths, exprs_mapExprs, List.flatMap_map, List.map_flatMap]
  exact congrArg (test.exprs.flatMap ·) (funext (Expr.paths_mapPaths f))

/-! ### Conditions and queries -/

namespace Query

/-- The conditions of a level are renamed with its own aliases. -/
theorem conditions_rename (query : Query) (names : Renaming) :
    (query.rename names).conditions = query.conditions.map (·.rename names) := by
  have joined : (query.rename names).joins.filterMap (·.condition) =
      (query.joins.filterMap (·.condition)).map (·.rename names) := by
    rw [List.map_filterMap]
    change List.filterMap _ (List.map _ (List.map _ query.joins)) = _
    rw [List.map_map, List.filterMap_map]
    exact congrArg (List.filterMap · query.joins)
      (funext fun join => Option.map_map _ _ join.condition)
  have optional : ∀ condition : Option Predicate,
      (Option.map (· names) (condition.map fun inner => inner.rename)).toList =
        condition.toList.map (·.rename names) := by
    intro condition
    cases condition <;> rfl
  rw [Select.conditions, joined, Select.conditions, List.map_append, List.map_append]
  exact congr (congrArg _ (congrArg _ (optional query.filter))) (optional query.having)

theorem aliases_rename (query : Query) (names : Renaming) :
    (query.rename names).aliases = query.aliases.map names.name := by
  change names.name query.root.name :: _ = _
  rw [Select.aliases, List.map_cons]
  apply congrArg _
  change List.map _ (List.map _ (List.map _ query.joins)) = _
  rw [List.map_map, List.map_map, List.map_map]
  rfl

/-- A renaming from outside leaves the aliases of a query alone. -/
theorem aliases_rename_inside (query : Query) (names : Renaming) :
    (query.rename (names.inside query)).aliases.map (·.value) = query.aliases.map (·.value) := by
  rw [aliases_rename, List.map_map]
  apply List.map_congr_left
  intro written member
  exact (names.apply_inside query written.value).trans (if_pos (List.mem_map_of_mem member))

end Query

namespace Predicate

variable (names : Renaming)

theorem rename_and (operands : List Predicate) :
    (Predicate.and operands).rename names = .and (operands.map (·.rename names)) := by
  rw [rename, fold_and]
  simp only [Renaming.walk, List.map_map]
  rfl

theorem rename_or (operands : List Predicate) :
    (Predicate.or operands).rename names = .or (operands.map (·.rename names)) := by
  rw [rename, fold_or]
  simp only [Renaming.walk, List.map_map]
  rfl

@[simp] theorem rename_not (operand : Predicate) :
    operand.not.rename names = (operand.rename names).not := rfl

@[simp] theorem rename_group (operand : Predicate) :
    operand.group.rename names = (operand.rename names).group := rfl

@[simp] theorem rename_test (test : Test) :
    (Predicate.test test).rename names = .test (test.mapExprs (Expr.mapPaths names.path)) := rfl

/-- A query inside a condition is renamed as far as it does not hide aliases. -/
theorem fold_renameWalk (query : Query) :
    query.fold Renaming.walk names = query.rename (names.inside query) := by
  rw [Query.fold_eq]
  change Renaming.walk.level _ (names.inside _) = _
  have declared : names.inside (query.map (fold Renaming.walk)) = names.inside query := by
    have aliases : (query.map (fold Renaming.walk)).aliases = query.aliases := by
      rw [Select.aliases, Select.map, List.map_map, Select.aliases]
      rfl
    simp only [Renaming.inside, Select.declares, aliases]
  rw [declared]
  rfl

theorem rename_inQuery (tested : Expr) (query : Query) (negated : Bool) :
    (Predicate.inQuery tested query negated).rename names =
      .inQuery (tested.mapPaths names.path) (query.rename (names.inside query)) negated := by
  rw [← fold_renameWalk]
  rfl

theorem rename_existsIn (query : Query) (negated : Bool) :
    (Predicate.existsIn query negated).rename names =
      .existsIn (query.rename (names.inside query)) negated := by
  rw [← fold_renameWalk]
  rfl

theorem eq_existsIn_of_rename {names : Renaming} {predicate : Predicate} {query : Query}
    {negated : Bool} (same : predicate.rename names = .existsIn query negated) :
    ∃ inner, predicate = .existsIn inner negated := by
  cases predicate with
  | and operands =>
    rw [rename_and] at same
    cases same
  | or operands =>
    rw [rename_or] at same
    cases same
  | inQuery tested inner negated =>
    rw [rename_inQuery] at same
    cases same
  | existsIn inner negated =>
    rw [rename_existsIn] at same
    obtain ⟨_, rfl⟩ := Predicate.existsIn.inj same
    exact ⟨inner, rfl⟩
  | _ => cases same

end Predicate

/-! ### What renaming keeps -/

namespace Predicate

theorem subqueries_rename (predicate : Predicate) (names : Renaming) :
    (predicate.rename names).subqueries =
      predicate.subqueries.map fun query => query.rename (names.inside query) := by
  induction predicate using Predicate.induction generalizing names with
  | and operands ih =>
    rw [rename_and, subqueries_and, subqueries_and, List.flatMap_map, List.map_flatMap]
    exact List.flatMap_congr fun operand member => ih operand member names
  | or operands ih =>
    rw [rename_or, subqueries_or, subqueries_or, List.flatMap_map, List.map_flatMap]
    exact List.flatMap_congr fun operand member => ih operand member names
  | not operand ih => exact ih names
  | group operand ih => exact ih names
  | test test => rfl
  | inQuery tested query negated =>
    rw [rename_inQuery]
    rfl
  | existsIn query negated =>
    rw [rename_existsIn]
    rfl

end Predicate

/-- A renaming from outside changes none of the aliases that a query declares. -/
theorem Query.allAliases_rename_inside {query : Query} {names : Renaming}
    (each : ∀ condition ∈ query.conditions, ∀ names : Renaming,
      (condition.rename names).allAliases = condition.allAliases) :
    (query.rename (names.inside query)).allAliases = query.allAliases := by
  rw [allAliases_eq, allAliases_eq, aliases_rename_inside, conditions_rename, List.flatMap_map]
  refine congrArg (_ ++ ·) (List.flatMap_congr fun condition member => ?_)
  exact each condition member _

theorem Predicate.allAliases_rename (predicate : Predicate) (names : Renaming) :
    (predicate.rename names).allAliases = predicate.allAliases := by
  induction predicate using Predicate.induction generalizing names with
  | and operands ih =>
    rw [rename_and, allAliases_and, allAliases_and, List.flatMap_map]
    exact List.flatMap_congr fun operand member => ih operand member names
  | or operands ih =>
    rw [rename_or, allAliases_or, allAliases_or, List.flatMap_map]
    exact List.flatMap_congr fun operand member => ih operand member names
  | not operand ih => exact ih names
  | group operand ih => exact ih names
  | test test => rfl
  | inQuery tested query negated ih =>
    rw [rename_inQuery]
    exact Query.allAliases_rename_inside ih
  | existsIn query negated ih =>
    rw [rename_existsIn]
    exact Query.allAliases_rename_inside ih

theorem Query.nesting_rename_of {query : Query} {names : Renaming}
    (each : ∀ condition ∈ query.conditions, (condition.rename names).nesting = condition.nesting) :
    (query.rename names).nesting = query.nesting := by
  rw [nesting_eq, nesting_eq, conditions_rename, List.map_map]
  exact congrArg (List.foldl max 0) (List.map_congr_left each)

theorem Predicate.nesting_rename (predicate : Predicate) (names : Renaming) :
    (predicate.rename names).nesting = predicate.nesting := by
  induction predicate using Predicate.induction generalizing names with
  | and operands ih =>
    rw [rename_and, nesting_and, nesting_and, List.map_map]
    refine congrArg (List.foldl max 0) (List.map_congr_left fun operand member => ?_)
    exact ih operand member names
  | or operands ih =>
    rw [rename_or, nesting_or, nesting_or, List.map_map]
    refine congrArg (List.foldl max 0) (List.map_congr_left fun operand member => ?_)
    exact ih operand member names
  | not operand ih => exact ih names
  | group operand ih => exact ih names
  | test test => rfl
  | inQuery tested query negated ih =>
    rw [rename_inQuery]
    exact congrArg Nat.succ (Query.nesting_rename_of fun condition member => ih condition member _)
  | existsIn query negated ih =>
    rw [rename_existsIn]
    exact congrArg Nat.succ (Query.nesting_rename_of fun condition member => ih condition member _)

theorem Query.nesting_rename (query : Query) (names : Renaming) :
    (query.rename names).nesting = query.nesting :=
  nesting_rename_of fun condition _ => condition.nesting_rename names

/-- A query inside a renamed one declares what a query inside the one that was renamed does. -/
theorem Query.mem_subqueries_rename {query inner : Query} {names : Renaming}
    (member : inner ∈ (query.rename names).subqueries) :
    ∃ written ∈ query.subqueries, inner = written.rename (names.inside written) ∧
      inner.allAliases = written.allAliases := by
  obtain ⟨condition, among, found⟩ := List.mem_flatMap.mp member
  rw [conditions_rename] at among
  obtain ⟨before, ofQuery, rfl⟩ := List.mem_map.mp among
  rw [Predicate.subqueries_rename] at found
  obtain ⟨written, ofBefore, rfl⟩ := List.mem_map.mp found
  refine ⟨written, List.mem_flatMap.mpr ⟨before, ofQuery, ofBefore⟩, rfl, ?_⟩
  exact allAliases_rename_inside fun condition _ names => condition.allAliases_rename names

end QueryGuard
