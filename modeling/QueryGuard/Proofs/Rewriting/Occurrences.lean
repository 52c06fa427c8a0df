import QueryGuard.Proofs.Rewriting.Replacement
import QueryGuard.Proofs.Rewriting.Scoping
/-!
All paths of a condition with the aliases of the queries around them, and what renaming and
replacing queries does to them.
-/

set_option autoImplicit false

namespace QueryGuard

/-- A path of a condition, and the aliases that the queries around it declare, those of the
outermost one first. -/
structure Occurrence where
  path : Path
  levels : List (List String)
deriving DecidableEq, Repr

namespace Occurrence

/-- A path without queries around it. -/
def bare (path : Path) : Occurrence := ⟨path, []⟩

/-- The occurrence with one more query around it. -/
def inside (level : List String) (occurrence : Occurrence) : Occurrence :=
  { occurrence with levels := level :: occurrence.levels }

/-- What the path starts at, by the nearest declaration. -/
def reference (occurrence : Occurrence) : Reference :=
  .of occurrence.path.root.value occurrence.levels

/-- Renaming from outside changes only what the queries around the path do not declare. -/
def rename (names : Renaming) (occurrence : Occurrence) : Occurrence :=
  if occurrence.path.root.value ∈ occurrence.levels.flatten then occurrence
  else { occurrence with path := names.path occurrence.path }

end Occurrence

/-- The path that a join follows, if it does. -/
def JoinTarget.paths : JoinTarget → List Path
  | .path chain => [chain]
  | .entity _ => []

namespace Select

variable {α : Type}

/-- The paths of a query outside its conditions. -/
def ownPaths (query : Select α) : List Path :=
  query.items.flatMap (·.expr.paths) ++
    query.joins.flatMap (·.target.paths) ++
    query.groupBy.flatMap Expr.paths ++
    query.orderBy.flatMap (·.expr.paths)

/-- The occurrences in a query, given those in its conditions. -/
def occurrencesFrom (query : Select (List Occurrence)) : List Occurrence :=
  (query.ownPaths.map Occurrence.bare ++ query.conditions.flatten).map
    (Occurrence.inside (query.aliases.map (·.value)))

end Select

/-- The walk that lists all paths. -/
def occurrenceWalk : PredicateFold (List Occurrence) (List Occurrence) where
  and := List.flatten
  or := List.flatten
  not := id
  group := id
  test := fun leaf => leaf.paths.map Occurrence.bare
  inQuery := fun tested query _ => tested.paths.map Occurrence.bare ++ query
  existsIn := fun query _ => query
  query := Select.occurrencesFrom

/-- All paths of a condition, those of queries inside it included. -/
def Predicate.occurrences : Predicate → List Occurrence := Predicate.fold occurrenceWalk

/-- All paths of a query at all levels. -/
def Query.occurrences : Query → List Occurrence := Query.fold occurrenceWalk

/-- The paths of a query as they are below its level. -/
def Query.levelOccurrences (query : Query) : List Occurrence :=
  query.ownPaths.map Occurrence.bare ++ query.conditions.flatMap Predicate.occurrences

/-! ### Equations -/

theorem Query.occurrences_eq (query : Query) :
    query.occurrences =
      query.levelOccurrences.map (Occurrence.inside (query.aliases.map (·.value))) := by
  have own : ∀ f : Predicate → List Occurrence, (query.map f).ownPaths = query.ownPaths := by
    intro f
    simp only [Select.ownPaths, Select.map, List.flatMap_map, Join.map]
  have aliases : ∀ f : Predicate → List Occurrence, (query.map f).aliases = query.aliases := by
    intro f
    simp only [Select.aliases, Select.map, List.map_map]
    rfl
  rw [occurrences, Query.fold_eq]
  change Select.occurrencesFrom _ = _
  rw [Select.occurrencesFrom, own, aliases, Select.conditions_map, levelOccurrences,
    List.flatMap_def]
  rfl

namespace Predicate

theorem occurrences_and (operands : List Predicate) :
    (Predicate.and operands).occurrences = operands.flatMap occurrences := by
  rw [occurrences, fold_and, List.flatMap_def]
  rfl

theorem occurrences_or (operands : List Predicate) :
    (Predicate.or operands).occurrences = operands.flatMap occurrences := by
  rw [occurrences, fold_or, List.flatMap_def]
  rfl

theorem occurrences_inQuery (tested : Expr) (query : Query) (negated : Bool) :
    (Predicate.inQuery tested query negated).occurrences =
      tested.paths.map Occurrence.bare ++ query.occurrences := rfl

theorem occurrences_existsIn (query : Query) (negated : Bool) :
    (Predicate.existsIn query negated).occurrences = query.occurrences := rfl

end Predicate

/-! ### Renaming -/

theorem Query.ownPaths_rename (query : Query) (names : Renaming) :
    (query.rename names).ownPaths = query.ownPaths.map names.path := by
  have renamed : ∀ {α : Type} {expr : α → Expr} {change : α → α} (items : List α),
      (∀ item, expr (change item) = (expr item).mapPaths names.path) →
      (items.map change).flatMap (fun item => (expr item).paths) =
        (items.flatMap fun item => (expr item).paths).map names.path := by
    intro α expr change items each
    rw [List.flatMap_map, List.map_flatMap]
    refine congrArg (items.flatMap ·) (funext fun item => ?_)
    rw [each, Expr.paths_mapPaths]
  have targets : (query.rename names).joins.flatMap (·.target.paths) =
      (query.joins.flatMap (·.target.paths)).map names.path := by
    change List.flatMap _ (List.map _ (List.map _ query.joins)) = _
    rw [List.map_map, List.flatMap_map, List.map_flatMap]
    refine congrArg (query.joins.flatMap ·) (funext fun join => ?_)
    change (names.target join.target).paths = _
    cases join.target <;> rfl
  have items : (query.rename names).items.flatMap (·.expr.paths) =
      (query.items.flatMap (·.expr.paths)).map names.path := renamed query.items (by exact fun _ => rfl)
  have orderBy : (query.rename names).orderBy.flatMap (·.expr.paths) =
      (query.orderBy.flatMap (·.expr.paths)).map names.path :=
    renamed query.orderBy (by exact fun _ => rfl)
  have groupBy : (query.rename names).groupBy.flatMap Expr.paths =
      (query.groupBy.flatMap Expr.paths).map names.path :=
    renamed query.groupBy (by exact fun _ => rfl)
  simp only [Select.ownPaths, List.map_append, targets, items, orderBy, groupBy]

namespace Occurrence

/-- Paths without queries around them are just renamed. -/
theorem map_bare (names : Renaming) (paths : List Path) :
    (paths.map names.path).map bare = (paths.map bare).map (.rename names) := by
  rw [List.map_map, List.map_map]
  rfl

/-- What a query leaves of a renaming is what matters below its level. -/
theorem rename_inside {α : Type} (names : Renaming) (query : Select α) (occurrence : Occurrence) :
    (occurrence.rename (names.inside query)).inside (query.aliases.map (·.value)) =
      (occurrence.inside (query.aliases.map (·.value))).rename names := by
  obtain ⟨path, levels⟩ := occurrence
  by_cases further : path.root.value ∈ levels.flatten
  · have declared := List.mem_append_right (query.aliases.map (·.value)) further
    simp only [rename, inside, List.flatten_cons, if_pos further]
    exact (if_pos declared).symm
  · simp only [rename, inside, List.flatten_cons, List.mem_append, further, or_false, if_false,
      Renaming.path, Renaming.name, Renaming.apply_inside]
    split
    · rfl
    · rfl

end Occurrence

/-- What is known of the occurrences in conditions is known of those in all of them. -/
theorem Predicate.occurrences_renameAll {predicates : List Predicate} {names : Renaming}
    (each : ∀ predicate ∈ predicates,
      (predicate.rename names).occurrences = predicate.occurrences.map (.rename names)) :
    (predicates.map (·.rename names)).flatMap occurrences =
      (predicates.flatMap occurrences).map (.rename names) := by
  rw [List.flatMap_map, List.map_flatMap]
  exact List.flatMap_congr each

theorem Query.levelOccurrences_rename_of {query : Query} {names : Renaming}
    (each : ∀ condition ∈ query.conditions,
      (condition.rename names).occurrences = condition.occurrences.map (.rename names)) :
    (query.rename names).levelOccurrences = query.levelOccurrences.map (.rename names) := by
  rw [levelOccurrences, levelOccurrences, ownPaths_rename, conditions_rename,
    Predicate.occurrences_renameAll each, Occurrence.map_bare, ← List.map_append]

/-- A renaming from outside leaves the aliases of a query alone. -/
theorem Query.occurrences_rename_inside {query : Query} {names : Renaming}
    (each : ∀ condition ∈ query.conditions, ∀ names,
      (condition.rename names).occurrences = condition.occurrences.map (.rename names)) :
    (query.rename (names.inside query)).occurrences = query.occurrences.map (.rename names) := by
  rw [occurrences_eq, levelOccurrences_rename_of fun condition member => each condition member _,
    occurrences_eq, aliases_rename_inside, List.map_map, List.map_map]
  exact congrArg (List.map · _) (funext fun occurrence => occurrence.rename_inside names query)

namespace Predicate

theorem occurrences_rename (predicate : Predicate) (names : Renaming) :
    (predicate.rename names).occurrences = predicate.occurrences.map (.rename names) := by
  induction predicate using Predicate.induction generalizing names with
  | and operands ih =>
    rw [rename_and, occurrences_and, occurrences_and]
    exact occurrences_renameAll fun operand member => ih operand member names
  | or operands ih =>
    rw [rename_or, occurrences_or, occurrences_or]
    exact occurrences_renameAll fun operand member => ih operand member names
  | not operand ih => exact ih names
  | group operand ih => exact ih names
  | test test =>
    change (test.mapExprs (Expr.mapPaths names.path)).paths.map Occurrence.bare = _
    rw [Test.paths_mapExprs, Occurrence.map_bare]
    rfl
  | inQuery tested query negated ih =>
    rw [rename_inQuery, occurrences_inQuery, occurrences_inQuery, Expr.paths_mapPaths,
      Occurrence.map_bare, List.map_append, Query.occurrences_rename_inside ih]
  | existsIn query negated ih =>
    rw [rename_existsIn, occurrences_existsIn, occurrences_existsIn]
    exact Query.occurrences_rename_inside ih

end Predicate

theorem Query.levelOccurrences_rename (query : Query) (names : Renaming) :
    (query.rename names).levelOccurrences = query.levelOccurrences.map (.rename names) :=
  levelOccurrences_rename_of fun condition _ => condition.occurrences_rename names

/-! ### Replacing -/

/-- The aliases and the paths outside the conditions stay. -/
theorem Select.Related.ownPaths {α β : Type} {related : α → β → Prop} {query : Select α}
    {result : Select β} (same : query.Related related result) :
    result.ownPaths = query.ownPaths := by
  have targets : ∀ {joins : List (Join α)} {results : List (Join β)},
      List.Forall₂ (Join.Related related) joins results →
      results.flatMap (·.target.paths) = joins.flatMap (·.target.paths) := by
    intro joins results each
    induction each with
    | nil => rfl
    | cons first _ ih => rw [List.flatMap_cons, List.flatMap_cons, ih, first.target]
  rw [Select.ownPaths, Select.ownPaths, same.items, same.groupBy, same.orderBy, targets same.joins]

theorem Select.Related.aliases {α β : Type} {related : α → β → Prop} {query : Select α}
    {result : Select β} (same : query.Related related result) :
    result.aliases = query.aliases := by
  have names : ∀ {joins : List (Join α)} {results : List (Join β)},
      List.Forall₂ (Join.Related related) joins results →
      results.map (·.name) = joins.map (·.name) := by
    intro joins results each
    induction each with
    | nil => rfl
    | cons first _ ih => rw [List.map_cons, List.map_cons, ih, first.name]
  rw [Select.aliases, Select.aliases, same.root, names same.joins]

section

variable {kept : Occurrence → Occurrence → Prop} {related : Query → Query → Prop}
  (bare : ∀ path, kept (.bare path) (.bare path))
  (inside : ∀ query result, related query result →
    List.Forall₂ kept query.occurrences result.occurrences)

include bare

theorem forall₂_bare (paths : List Path) :
    List.Forall₂ kept (paths.map Occurrence.bare) (paths.map Occurrence.bare) :=
  List.forall₂_same.mpr fun occurrence member => by
    obtain ⟨path, _, rfl⟩ := List.mem_map.mp member
    exact bare path

include inside

/-- What is kept in the queries inside a condition is kept in the condition. -/
theorem Predicate.Replaced.occurrences {predicate result : Predicate}
    (replaced : predicate.Replaced related result) :
    List.Forall₂ kept predicate.occurrences result.occurrences := by
  refine replaced.induction ?and ?or ?not ?group ?test ?inQuery ?existsIn
  case and =>
    intro operands results each
    rw [occurrences_and, occurrences_and]
    exact List.rel_flatMap each fun _ _ => id
  case or =>
    intro operands results each
    rw [occurrences_or, occurrences_or]
    exact List.rel_flatMap each fun _ _ => id
  case not => exact fun _ _ => id
  case group => exact fun _ _ => id
  case test => exact fun test => forall₂_bare bare test.paths
  case inQuery =>
    intro tested query result negated holds
    rw [occurrences_inQuery, occurrences_inQuery]
    exact List.rel_append (forall₂_bare bare tested.paths) (inside query result holds)
  case existsIn => exact fun query result _ holds => inside query result holds

theorem Query.Replaced.levelOccurrences {query result : Query}
    (replaced : query.Replaced related result) :
    List.Forall₂ kept query.levelOccurrences result.levelOccurrences := by
  rw [Query.levelOccurrences, Query.levelOccurrences, Select.Related.ownPaths replaced]
  apply List.rel_append (forall₂_bare bare query.ownPaths)
  exact List.rel_flatMap (Select.Related.conditions replaced) fun _ _ holds =>
    holds.occurrences bare inside

end

/-! ### Other aliases for all levels around a path -/

namespace Occurrence

/-- All levels around the path got other aliases, and the path was renamed along with them. -/
structure Along (before after : Occurrence) : Prop where
  attributes : after.path.attributes = before.path.attributes
  shape : SameShape before.levels after.levels
  root : after.path.root.value = follow before.levels after.levels before.path.root.value

namespace Along

theorem bare (path : Path) : Along (.bare path) (.bare path) := ⟨rfl, .nil, rfl⟩

theorem levels_rename (names : Renaming) (occurrence : Occurrence) :
    (occurrence.rename names).levels = occurrence.levels := by
  unfold Occurrence.rename
  split
  · rfl
  · rfl

/-- One more level around the path gets other aliases. -/
theorem inside {before after : Occurrence} {level now : List String} {changes : Renaming}
    (along : Along (before.rename changes) after) (length : level.length = now.length)
    (renames : ∀ name, changes.apply name = Renaming.apply (level.zip now) name) :
    Along (before.inside level) (after.inside now) := by
  obtain ⟨path, levels⟩ := before
  refine ⟨?_, .cons length (levels_rename changes ⟨path, levels⟩ ▸ along.shape), ?_⟩
  · rw [Occurrence.inside, along.attributes, Occurrence.rename]
    split
    · rfl
    · rfl
  · change after.path.root.value = follow (level :: levels) (now :: after.levels) path.root.value
    rw [follow, ← renames, along.root]
    unfold Occurrence.rename
    by_cases further : path.root.value ∈ levels.flatten
    · rw [if_pos further, if_pos further]
    · rw [if_neg further, if_neg further]
      rfl

end Along

end Occurrence

/-- What is kept in the queries inside a renamed query, and kept when the level is put around them,
is kept in the query. -/
theorem Query.occurrences_level {inner kept : Occurrence → Occurrence → Prop} {changes : Renaming}
    {now : List String} {query result : Query} (bare : ∀ path, inner (.bare path) (.bare path))
    (aliases : (query.aliases.map (·.value)).map changes.apply = now)
    (inside : ∀ before after : Occurrence, inner (before.rename changes) after →
      kept (before.inside (query.aliases.map (·.value))) (after.inside now))
    (replaced : (query.rename changes).Replaced (fun query result =>
      List.Forall₂ inner query.occurrences result.occurrences) result) :
    List.Forall₂ kept query.occurrences result.occurrences := by
  have level := replaced.levelOccurrences bare fun _ _ holds => holds
  have renamed : result.aliases.map (·.value) = now := by
    rw [Select.Related.aliases replaced, aliases_rename, List.map_map, ← aliases, List.map_map]
    rfl
  rw [levelOccurrences_rename, List.forall₂_map_left_iff] at level
  rw [occurrences_eq, occurrences_eq, renamed, List.forall₂_map_left_iff,
    List.forall₂_map_right_iff]
  exact level.imp inside

end QueryGuard
