import QueryGuard.Proofs.Siblings.Keeping
import QueryGuard.Proofs.Siblings.Shape
import QueryGuard.Syntax.Parser
import QueryGuard.Syntax.Printer
/-!
Renaming twice. It is one renaming that takes each name which occurs to where the two take it, if
no query declares a new name that the second renaming takes further. Renaming in one pass and pair by pair
are the same, if no pair renames what an earlier one gave as a new name.
-/

set_option autoImplicit false

namespace QueryGuard

/-! ### Expressions -/

theorem Expr.mapPaths_congr {f g : Path → Path} {expr : Expr}
    (same : ∀ path ∈ expr.paths, f path = g path) : expr.mapPaths f = expr.mapPaths g := by
  induction expr using Expr.induction with
  | path path => exact congrArg Expr.path (same path List.mem_cons_self)
  | literal literal => rfl
  | parameter name => rfl
  | aggregate function distinct argument span ih =>
    exact congrArg (Expr.aggregate function distinct · span) (ih same)
  | call name arguments span ih =>
    rw [paths_call] at same
    rw [mapPaths, mapPaths, fold_call, fold_call]
    refine congrArg (Expr.call name · span) (List.map_congr_left fun argument member => ?_)
    exact ih argument member fun path found =>
      same path (List.mem_flatMap.mpr ⟨argument, member, found⟩)

theorem Test.mapExprs_congr {f g : Expr → Expr} {test : Test}
    (same : ∀ expr ∈ test.exprs, f expr = g expr) : test.mapExprs f = test.mapExprs g := by
  cases test with
  | inList tested items negated =>
    obtain ⟨first, others⟩ := List.forall_mem_cons.mp same
    rw [mapExprs, mapExprs, first, List.map_congr_left others]
  | _ => simp_all [exprs, mapExprs]

/-! ### The names that paths start at -/

def Predicate.starts (predicate : Predicate) : List String :=
  predicate.occurrences.map (·.path.root.value)

/-- The names that the paths of a query start at, at all levels. -/
def Query.starts (query : Query) : List String := query.occurrences.map (·.path.root.value)

theorem Query.starts_eq (query : Query) :
    query.starts = query.ownPaths.map (·.root.value) ++
      query.conditions.flatMap Predicate.starts := by
  rw [starts, occurrences_eq, levelOccurrences, List.map_map, List.map_append, List.map_map,
    List.map_flatMap]
  rfl

namespace Predicate

theorem starts_and (operands : List Predicate) :
    (Predicate.and operands).starts = operands.flatMap starts := by
  rw [starts, occurrences_and, List.map_flatMap]
  rfl

theorem starts_or (operands : List Predicate) :
    (Predicate.or operands).starts = operands.flatMap starts := by
  rw [starts, occurrences_or, List.map_flatMap]
  rfl

theorem starts_test (test : Test) :
    (Predicate.test test).starts = test.paths.map (·.root.value) := by
  change (test.paths.map Occurrence.bare).map _ = _
  rw [List.map_map]
  rfl

theorem starts_inQuery (tested : Expr) (query : Query) (negated : Bool) :
    (Predicate.inQuery tested query negated).starts =
      tested.paths.map (·.root.value) ++ query.starts := by
  rw [starts, occurrences_inQuery, List.map_append, List.map_map]
  rfl

end Predicate

/-! ### One renaming after the other -/

namespace Renaming

/-- The first renaming and then the second one do what the whole one does to the names that paths
start at, and the second one leaves new names alone that are declared. -/
structure Composes (first second whole : Renaming) (starts declared : List String) : Prop where
  agree : ∀ name ∈ starts, second.apply (first.apply name) = whole.apply name
  stay : ∀ name, first.apply name ∈ declared → first.apply name ≠ name →
    second.apply (first.apply name) = first.apply name

namespace Composes

variable {first second whole : Renaming} {starts declared : List String}

theorem mono {fewer less : List String} (composes : Composes first second whole starts declared)
    (among : fewer ⊆ starts) (within : less ⊆ declared) :
    Composes first second whole fewer less :=
  ⟨fun name member => composes.agree name (among member),
    fun name member => composes.stay name (within member)⟩

/-- What a query leaves visible of the renamings composes as well. -/
theorem inside {α : Type} (query : Select α)
    (composes : Composes first second whole starts declared)
    (own : query.aliases.map (·.value) ⊆ declared) :
    Composes (first.inside query) (second.inside query) (whole.inside query) starts declared := by
  refine ⟨fun name member => ?_, fun name member new => ?_⟩
  · rw [apply_inside, apply_inside, apply_inside]
    by_cases here : name ∈ query.aliases.map (·.value)
    · rw [if_pos here, if_pos here, if_pos here]
    · rw [if_neg here, if_neg here]
      by_cases hidden : first.apply name ∈ query.aliases.map (·.value)
      · have other : first.apply name ≠ name := fun same => here (same ▸ hidden)
        rw [if_pos hidden, ← composes.stay name (own hidden) other, composes.agree name member]
      · rw [if_neg hidden, composes.agree name member]
  · have visible := first.apply_inside query name
    by_cases here : name ∈ query.aliases.map (·.value)
    · exact absurd (visible.trans (if_pos here)) new
    · rw [visible, if_neg here] at member new ⊢
      rw [apply_inside, composes.stay name member new, ite_self]

theorem path (composes : Composes first second whole starts declared) {path : Path}
    (member : path.root.value ∈ starts) : second.path (first.path path) = whole.path path := by
  simp only [Renaming.path, name, composes.agree _ member]

theorem expr (composes : Composes first second whole starts declared) {expr : Expr}
    (among : expr.paths.map (·.root.value) ⊆ starts) :
    (expr.mapPaths first.path).mapPaths second.path = expr.mapPaths whole.path := by
  rw [Expr.mapPaths_mapPaths]
  exact Expr.mapPaths_congr fun path member => composes.path (among (List.mem_map_of_mem member))

end Composes

/-- Renaming a query from outside leaves visible inside it what it left visible before. -/
theorem inside_rename (names outer : Renaming) (query : Query) :
    names.inside (query.rename (outer.inside query)) = names.inside query := by
  have declares : ∀ name, (query.rename (outer.inside query)).declares name =
      query.declares name := by
    intro name
    rw [Bool.eq_iff_iff, Select.declares_iff, Select.declares_iff, Query.aliases_rename_inside]
  exact List.filter_congr fun pair _ => congrArg (!·) (declares pair.1)

/-- The join with its aliases renamed. -/
def join (names : Renaming) (join : Join Predicate) : Join Predicate :=
  { join with
    target := names.target join.target
    name := names.name join.name
    condition := join.condition.map (·.rename names) }

end Renaming

namespace Query

/-- Renaming a query renames its aliases, the paths outside its conditions, and its conditions. -/
theorem rename_eq (query : Query) (names : Renaming) :
    query.rename names =
      { query with
        items := query.items.map fun item =>
          { item with expr := item.expr.mapPaths names.path }
        root := names.range query.root
        joins := query.joins.map names.join
        filter := query.filter.map (·.rename names)
        groupBy := query.groupBy.map (Expr.mapPaths names.path)
        having := query.having.map (·.rename names)
        orderBy := query.orderBy.map fun item =>
          { item with expr := item.expr.mapPaths names.path } } := by
  simp only [rename, Renaming.walk.level, Select.map, Join.map, List.map_map, Option.map_map,
    Function.comp_def]
  rfl

/-- Two maps in a row are one map. -/
theorem map_map_of {α : Type} {f g h : α → α} {items : List α}
    (same : ∀ item ∈ items, g (f item) = h item) : (items.map f).map g = items.map h := by
  rw [List.map_map]
  exact List.map_congr_left same

variable {query : Query} {first second whole : Renaming}

/-- A join is renamed twice like once if its path, its alias and its condition are. -/
theorem join_join {join : Join Predicate}
    (paths : ∀ path ∈ join.target.paths, second.path (first.path path) = whole.path path)
    (named : second.name (first.name join.name) = whole.name join.name)
    (condition : (join.condition.map (·.rename first)).map (·.rename second) =
      join.condition.map (·.rename whole)) :
    second.join (first.join join) = whole.join join := by
  have target : second.target (first.target join.target) = whole.target join.target := by
    cases kind : join.target with
    | path chain =>
      rw [kind] at paths
      exact congrArg JoinTarget.path (paths chain List.mem_cons_self)
    | entity name => rfl
  simp only [Renaming.join, target, named, condition]

/-- A query is renamed twice like once if its aliases, its paths and its conditions are. -/
theorem rename_rename_of
    (aliases : ∀ name ∈ query.aliases, second.name (first.name name) = whole.name name)
    (paths : ∀ path ∈ query.ownPaths, second.path (first.path path) = whole.path path)
    (conditions : ∀ condition ∈ query.conditions,
      (condition.rename first).rename second = condition.rename whole) :
    (query.rename first).rename second = query.rename whole := by
  simp only [Select.ownPaths, List.forall_mem_append, List.forall_mem_flatMap] at paths
  obtain ⟨⟨⟨ofItems, ofJoins⟩, ofGroups⟩, ofOrder⟩ := paths
  obtain ⟨ofRoot, named⟩ := List.forall_mem_cons.mp aliases
  have expr : ∀ expr : Expr,
      (∀ path ∈ expr.paths, second.path (first.path path) = whole.path path) →
      (expr.mapPaths first.path).mapPaths second.path = expr.mapPaths whole.path := by
    intro expr same
    rw [Expr.mapPaths_mapPaths]
    exact Expr.mapPaths_congr same
  have optional : ∀ condition : Option Predicate, (∀ inner ∈ condition, inner ∈ query.conditions) →
      (condition.map (·.rename first)).map (·.rename second) = condition.map (·.rename whole) := by
    intro condition among
    cases condition with
    | none => rfl
    | some inner => exact congrArg some (conditions inner (among inner rfl))
  have items : (query.items.map fun item => { item with expr := item.expr.mapPaths first.path }).map
      (fun item => { item with expr := item.expr.mapPaths second.path }) =
      query.items.map fun item => { item with expr := item.expr.mapPaths whole.path } :=
    map_map_of fun item member => by rw [expr item.expr (ofItems item member)]
  have joins : (query.joins.map first.join).map second.join = query.joins.map whole.join :=
    map_map_of fun join member => join_join (ofJoins join member)
      (named join.name (List.mem_map_of_mem member))
      (optional join.condition fun _ => Select.mem_of_join member)
  have groupBy : (query.groupBy.map (Expr.mapPaths first.path)).map (Expr.mapPaths second.path) =
      query.groupBy.map (Expr.mapPaths whole.path) :=
    map_map_of fun grouped member => expr grouped (ofGroups grouped member)
  have orderBy : (query.orderBy.map fun item =>
      { item with expr := item.expr.mapPaths first.path }).map
      (fun item => { item with expr := item.expr.mapPaths second.path }) =
      query.orderBy.map fun item => { item with expr := item.expr.mapPaths whole.path } :=
    map_map_of fun item member => by rw [expr item.expr (ofOrder item member)]
  have root : second.range (first.range query.root) = whole.range query.root :=
    congrArg (Range.mk query.root.entity) ofRoot
  rw [rename_eq (query.rename first), rename_eq query first, rename_eq query whole]
  simp only [items, joins, groupBy, orderBy, root,
    optional query.filter fun _ => Select.mem_of_filter,
    optional query.having fun _ => Select.mem_of_having]

/-- A query inside others is renamed twice like once if its conditions are. -/
theorem rename_rename_inside
    (composes : Renaming.Composes first second whole query.starts query.allAliases)
    (each : ∀ condition ∈ query.conditions, ∀ {first second whole : Renaming},
      Renaming.Composes first second whole condition.starts condition.allAliases →
        (condition.rename first).rename second = condition.rename whole) :
    (query.rename (first.inside query)).rename
        (second.inside (query.rename (first.inside query))) =
      query.rename (whole.inside query) := by
  rw [starts_eq, allAliases_eq] at composes
  have inside := composes.inside query (List.subset_append_left _ _)
  rw [Renaming.inside_rename]
  refine rename_rename_of (fun name member => ?_) (fun path member => ?_)
    fun condition member => ?_
  · -- the query hides its own aliases from all three
    have hidden : ∀ names : Renaming, (names.inside query).name name = name := fun names =>
      congrArg (Located.mk · name.span)
        ((names.apply_inside query name.value).trans (if_pos (List.mem_map_of_mem member)))
    rw [hidden, hidden, hidden]
  · exact inside.path (List.mem_append_left _ (List.mem_map_of_mem member))
  · exact each condition member (inside.mono
      (List.subset_append_of_subset_right _ (subset_flatMap member))
      (List.subset_append_of_subset_right _ (subset_flatMap member)))

end Query

theorem Predicate.rename_rename {predicate : Predicate} {first second whole : Renaming}
    (composes : Renaming.Composes first second whole predicate.starts predicate.allAliases) :
    (predicate.rename first).rename second = predicate.rename whole := by
  induction predicate using Predicate.induction generalizing first second whole with
  | and operands ih =>
    rw [starts_and, allAliases_and] at composes
    rw [rename_and, rename_and, rename_and, List.map_map]
    refine congrArg Predicate.and (List.map_congr_left fun operand member => ?_)
    exact ih operand member (composes.mono (subset_flatMap member)
      (subset_flatMap member))
  | or operands ih =>
    rw [starts_or, allAliases_or] at composes
    rw [rename_or, rename_or, rename_or, List.map_map]
    refine congrArg Predicate.or (List.map_congr_left fun operand member => ?_)
    exact ih operand member (composes.mono (subset_flatMap member)
      (subset_flatMap member))
  | not operand ih => exact congrArg Predicate.not (ih composes)
  | group operand ih => exact congrArg Predicate.group (ih composes)
  | test test =>
    rw [starts_test] at composes
    rw [rename_test, rename_test, rename_test, Test.mapExprs_mapExprs]
    refine congrArg Predicate.test (Test.mapExprs_congr fun expr member => ?_)
    refine composes.expr fun name found => ?_
    obtain ⟨path, among, rfl⟩ := List.mem_map.mp found
    exact List.mem_map_of_mem (List.mem_flatMap.mpr ⟨expr, member, among⟩)
  | inQuery tested query negated ih =>
    rw [starts_inQuery] at composes
    rw [rename_inQuery, rename_inQuery, rename_inQuery,
      composes.expr (List.subset_append_left _ _),
      Query.rename_rename_inside (composes.mono (List.subset_append_right _ _) fun _ => id) ih]
  | existsIn query negated ih =>
    rw [rename_existsIn, rename_existsIn, rename_existsIn, Query.rename_rename_inside composes ih]

theorem Query.rename_rename {query : Query} {first second whole : Renaming}
    (composes : Renaming.Composes first second whole query.starts query.allAliases)
    (aliases : ∀ name ∈ query.aliases.map (·.value),
      second.apply (first.apply name) = whole.apply name) :
    (query.rename first).rename second = query.rename whole := by
  rw [starts_eq, allAliases_eq] at composes
  refine rename_rename_of (fun name member => ?_) (fun path member => ?_)
    fun condition member => ?_
  · exact congrArg (Located.mk · name.span) (aliases name.value (List.mem_map_of_mem member))
  · exact composes.path (List.mem_append_left _ (List.mem_map_of_mem member))
  · exact condition.rename_rename (composes.mono
      (List.subset_append_of_subset_right _ (subset_flatMap member))
      (List.subset_append_of_subset_right _ (subset_flatMap member)))

/-! ### Pair by pair -/

namespace Renaming

/-- No pair renames the new name of a pair before it. -/
def Unchained (names : Renaming) : Prop := names.Pairwise fun first later => first.2 ≠ later.1

instance (names : Renaming) : Decidable names.Unchained :=
  inferInstanceAs (Decidable (names.Pairwise fun first later => first.2 ≠ later.1))

/-- The first pair and then the others are all of them, if the others leave its new name alone. -/
theorem composes_cons {pair : String × String} {rest : Renaming}
    (free : pair.2 ∉ rest.map (·.1)) (starts declared : List String) :
    Composes [pair] rest (pair :: rest) starts declared := by
  obtain ⟨old, new⟩ := pair
  have kept : rest.apply new = new := apply_not_mem free
  refine ⟨fun name _ => ?_, fun name _ renamed => ?_⟩
  · by_cases same : name = old
    · rw [same, apply_cons_self, apply_cons_self, kept]
    · rw [apply_cons_ne same, apply_cons_ne same]
      rfl
  · by_cases same : name = old
    · rw [same, apply_cons_self, kept]
    · exact absurd (apply_cons_ne same new []) renamed

end Renaming

theorem Query.rename_cons {pair : String × String} {rest : Renaming}
    (free : pair.2 ∉ rest.map (·.1)) (query : Query) :
    query.rename (pair :: rest) = (query.renameAlias pair.1 pair.2).rename rest := by
  have composes := Renaming.composes_cons free
  refine (rename_rename (composes _ _) fun name member => ?_).symm
  exact (composes [name] []).agree name List.mem_cons_self

theorem Predicate.rename_cons {pair : String × String} {rest : Renaming}
    (free : pair.2 ∉ rest.map (·.1)) (predicate : Predicate) :
    predicate.rename (pair :: rest) = (predicate.renameAlias pair.1 pair.2).rename rest :=
  (rename_rename (Renaming.composes_cons free _ _)).symm

/-- A query and a condition are renamed in one pass as they are pair by pair. -/
theorem Renaming.rename_stepwise {names : Renaming} (unchained : names.Unchained) :
    (∀ query : Query, query.rename names =
      names.foldl (fun query pair => query.renameAlias pair.1 pair.2) query) ∧
    ∀ predicate : Predicate, predicate.rename names =
      names.foldl (fun predicate pair => predicate.renameAlias pair.1 pair.2) predicate := by
  induction names with
  | nil => exact ⟨Query.rename_nil, Predicate.rename_nil⟩
  | cons pair rest ih =>
    obtain ⟨first, others⟩ := List.pairwise_cons.mp unchained
    obtain ⟨queries, predicates⟩ := ih others
    have free : pair.2 ∉ rest.map (·.1) := by
      intro member
      obtain ⟨later, among, same⟩ := List.mem_map.mp member
      exact first later among same.symm
    refine ⟨fun query => ?_, fun predicate => ?_⟩
    · rw [query.rename_cons free, queries, List.foldl_cons]
    · rw [predicate.rename_cons free, predicates, List.foldl_cons]

/-- One old name is there twice, a new name is an old one of an earlier pair, and queries inside
declare old and new names. -/
theorem Renaming.rename_stepwise_shadowed :
    ∃ query filter,
      Query.parse "select m from A m join m.b t where exists (select m from C m where m.x = t.y and exists (select x from D x where x.z = m.z and t.w = u.w)) and m.w = u.v"
        2 = .ok query ∧
      query.filter = some filter ∧
      Unchained [("m", "x"), ("m", "y"), ("t", "m"), ("u", "t")] ∧
      (query.rename [("m", "x"), ("m", "y"), ("t", "m"), ("u", "t")]).text = "select x from A x join x.b m where exists (select m from C m where m.x = m.y and exists (select x from D x where x.z = m.z and m.w = t.w)) and x.w = t.v" ∧
      query.rename [("m", "x"), ("m", "y"), ("t", "m"), ("u", "t")] =
        (((query.renameAlias "m" "x").renameAlias "m" "y").renameAlias "t" "m").renameAlias "u" "t" ∧
      filter.rename [("m", "x"), ("m", "y"), ("t", "m"), ("u", "t")] =
        (((filter.renameAlias "m" "x").renameAlias "m" "y").renameAlias "t" "m").renameAlias "u" "t" := by
  have runs : ((Query.parse "select m from A m join m.b t where exists (select m from C m where m.x = t.y and exists (select x from D x where x.z = m.z and t.w = u.w)) and m.w = u.v"
      2).toOption.bind fun query => query.filter.map fun _ =>
        (query.rename [("m", "x"), ("m", "y"), ("t", "m"), ("u", "t")]).text) =
      some "select x from A x join x.b m where exists (select m from C m where m.x = m.y and exists (select x from D x where x.z = m.z and m.w = t.w)) and x.w = t.v" := by
    decide +kernel
  have unchained : Unchained [("m", "x"), ("m", "y"), ("t", "m"), ("u", "t")] := by decide
  obtain ⟨query, parsed, runs⟩ := Option.bind_eq_some_iff.mp runs
  obtain ⟨filter, found, text⟩ := Option.map_eq_some_iff.mp runs
  obtain ⟨queries, predicates⟩ := Renaming.rename_stepwise unchained
  exact ⟨query, filter, ok_of_toOption parsed, found, unchained, text, queries query,
    predicates filter⟩

end QueryGuard
