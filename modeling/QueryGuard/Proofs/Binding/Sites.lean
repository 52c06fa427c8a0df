import QueryGuard.Proofs.Binding.Ranges
import QueryGuard.Proofs.Rewriting.Occurrences
/-!
All paths of a query with the aliases that are visible to them. A query is looked up by following
each of them from these.
-/

set_option autoImplicit false

namespace QueryGuard

/-- A path of a query with the aliases of the queries around it, and those of them that are visible
to it: all but for the path of a join, which starts at a range before the joined one or at one
further outside. -/
structure Site extends Occurrence where
  visible : List String
deriving DecidableEq, Repr

namespace Site

def bare (path : Path) : Site := ⟨.bare path, []⟩

/-- The site with one more query around it. -/
def inside (level : List String) (site : Site) : Site :=
  ⟨site.toOccurrence.inside level, level ++ site.visible⟩

/-- A path at a level whose aliases are all visible to it. -/
def own (level : List String) (path : Path) : Site := ⟨⟨path, [level]⟩, level⟩

def InScope (site : Site) : Prop := site.path.root.value ∈ site.visible

instance (site : Site) : Decidable site.InScope :=
  inferInstanceAs (Decidable (site.path.root.value ∈ site.visible))

theorem inside_bare (level : List String) (path : Path) : inside level (bare path) = own level path :=
  congrArg (Site.mk ⟨path, [level]⟩) (List.append_nil level)

end Site

namespace Select

variable {α : Type}

/-- The paths of joins, given the aliases of their level and those before the first one. -/
def joinSites (level : List String) : (earlier : List String) → List (Join α) → List Site
  | _, [] => []
  | earlier, join :: rest =>
      join.target.paths.map (fun path => ⟨⟨path, [level]⟩, earlier⟩) ++
        joinSites level (earlier ++ [join.name.value]) rest

/-- The paths of a query outside its conditions. -/
def ownSites (query : Select α) : List Site :=
  let level := query.aliases.map (·.value)
  query.items.flatMap (·.expr.paths.map (.own level)) ++
    joinSites level [query.root.name.value] query.joins ++
    query.groupBy.flatMap (·.paths.map (.own level)) ++
    query.orderBy.flatMap (·.expr.paths.map (.own level))

/-- The expressions of a query outside its conditions. -/
def exprs (query : Select α) : List Expr :=
  query.items.map (·.expr) ++ query.groupBy ++ query.orderBy.map (·.expr)

/-- The sites of a query, given those of its conditions. -/
def sitesFrom (query : Select (List Site)) : List Site :=
  query.ownSites ++ query.conditions.flatten.map (.inside (query.aliases.map (·.value)))

end Select

/-- The walk that lists all paths with what is visible to them. -/
def siteWalk : PredicateFold (List Site) (List Site) where
  and := List.flatten
  or := List.flatten
  not := id
  group := id
  test := fun leaf => leaf.paths.map .bare
  inQuery := fun tested query _ => tested.paths.map .bare ++ query
  existsIn := fun query _ => query
  query := Select.sitesFrom

def Predicate.sites : Predicate → List Site := Predicate.fold siteWalk

def Query.sites : Query → List Site := Query.fold siteWalk

/-! ### Equations -/

theorem Select.aliases_map {α β : Type} (f : α → β) (query : Select α) :
    (query.map f).aliases = query.aliases := by
  simp only [aliases, map, List.map_map]
  rfl

theorem Select.joinSites_map {α β : Type} (f : α → β) (level earlier : List String)
    (joins : List (Join α)) :
    joinSites level earlier (joins.map (·.map f)) = joinSites level earlier joins := by
  induction joins generalizing earlier with
  | nil => rfl
  | cons join rest ih =>
    rw [List.map_cons, joinSites, joinSites, ih]
    rfl

theorem Select.ownSites_map {α β : Type} (f : α → β) (query : Select α) :
    (query.map f).ownSites = query.ownSites := by
  simp only [ownSites, aliases_map]
  simp only [map, joinSites_map]

theorem Query.sites_eq (query : Query) :
    query.sites = query.ownSites ++
      (query.conditions.flatMap Predicate.sites).map (.inside (query.aliases.map (·.value))) := by
  rw [sites, Query.fold_eq]
  change Select.sitesFrom _ = _
  rw [Select.sitesFrom, Select.ownSites_map, Select.aliases_map, Select.conditions_map, List.flatMap_def]
  rfl

namespace Predicate

theorem sites_and (operands : List Predicate) :
    (Predicate.and operands).sites = operands.flatMap sites := by
  rw [sites, fold_and, List.flatMap_def]
  rfl

theorem sites_or (operands : List Predicate) :
    (Predicate.or operands).sites = operands.flatMap sites := by
  rw [sites, fold_or, List.flatMap_def]
  rfl

theorem sites_inQuery (tested : Expr) (query : Query) (negated : Bool) :
    (Predicate.inQuery tested query negated).sites =
      tested.paths.map .bare ++ query.sites := rfl

theorem sites_existsIn (query : Query) (negated : Bool) :
    (Predicate.existsIn query negated).sites = query.sites := rfl

theorem levelPaths_and (operands : List Predicate) :
    (Predicate.and operands).levelPaths = operands.flatMap levelPaths := by
  rw [levelPaths, fold_and, List.flatMap_def]

theorem levelPaths_or (operands : List Predicate) :
    (Predicate.or operands).levelPaths = operands.flatMap levelPaths := by
  rw [levelPaths, fold_or, List.flatMap_def]

/-- What holds of the paths of a condition as they are, and of all paths of the queries inside it,
holds of all paths of the condition. -/
theorem forall_sites {P : Site → Prop} (predicate : Predicate)
    (bare : ∀ path ∈ predicate.levelPaths, P (.bare path))
    (inside : ∀ inner ∈ predicate.subqueries, ∀ site ∈ inner.sites, P site) :
    ∀ site ∈ predicate.sites, P site := by
  have ofPaths : ∀ paths : List Path, (∀ path ∈ paths, P (.bare path)) →
      ∀ site ∈ paths.map Site.bare, P site := by
    intro paths each site member
    obtain ⟨path, among, rfl⟩ := List.mem_map.mp member
    exact each path among
  have all : ∀ operands : List Predicate,
      (∀ path ∈ operands.flatMap levelPaths, P (.bare path)) →
      (∀ inner ∈ operands.flatMap subqueries, ∀ site ∈ inner.sites, P site) →
      (∀ operand ∈ operands, (∀ path ∈ operand.levelPaths, P (.bare path)) →
        (∀ inner ∈ operand.subqueries, ∀ site ∈ inner.sites, P site) →
        ∀ site ∈ operand.sites, P site) →
      ∀ site ∈ operands.flatMap sites, P site := by
    intro operands bare inside each site member
    obtain ⟨operand, among, found⟩ := List.mem_flatMap.mp member
    exact each operand among (fun path own => bare path (List.mem_flatMap.mpr ⟨_, among, own⟩))
      (fun inner nested => inside inner (List.mem_flatMap.mpr ⟨_, among, nested⟩)) site found
  induction predicate using Predicate.induction with
  | and operands ih =>
    rw [levelPaths_and] at bare
    rw [subqueries_and] at inside
    rw [sites_and]
    exact all operands bare inside ih
  | or operands ih =>
    rw [levelPaths_or] at bare
    rw [subqueries_or] at inside
    rw [sites_or]
    exact all operands bare inside ih
  | not operand ih => exact ih bare inside
  | group operand ih => exact ih bare inside
  | test test => exact ofPaths test.paths bare
  | inQuery tested query negated =>
    rw [sites_inQuery]
    exact List.forall_mem_append.mpr
      ⟨ofPaths tested.paths bare, inside query List.mem_cons_self⟩
  | existsIn query negated => exact inside query List.mem_cons_self

end Predicate

/-! ### Sites and occurrences -/

theorem Select.occurrences_ownSites {α : Type} (query : Select α) :
    query.ownSites.map Site.toOccurrence =
      (query.ownPaths.map Occurrence.bare).map (.inside (query.aliases.map (·.value))) := by
  have joined : ∀ (level earlier : List String) (joins : List (Join α)),
      (joinSites level earlier joins).map Site.toOccurrence =
        ((joins.flatMap (·.target.paths)).map Occurrence.bare).map (.inside level) := by
    intro level earlier joins
    induction joins generalizing earlier with
    | nil => rfl
    | cons join rest ih =>
      rw [joinSites, List.map_append, ih, List.flatMap_cons, List.map_append, List.map_append,
        List.map_map, List.map_map, List.map_map]
      rfl
  simp only [ownSites, ownPaths, List.map_append, joined, List.map_flatMap, List.map_map]
  rfl

theorem Query.occurrences_sites_of {query : Query}
    (each : ∀ condition ∈ query.conditions,
      condition.sites.map Site.toOccurrence = condition.occurrences) :
    query.sites.map Site.toOccurrence = query.occurrences := by
  rw [sites_eq, occurrences_eq, levelOccurrences, List.map_append, List.map_append,
    Select.occurrences_ownSites, List.map_map]
  apply congrArg
  have nested : (query.conditions.flatMap Predicate.sites).map Site.toOccurrence =
      query.conditions.flatMap Predicate.occurrences := by
    rw [List.map_flatMap]
    exact List.flatMap_congr each
  rw [← nested, List.map_map, List.map_map]
  rfl

theorem Predicate.occurrences_sites (predicate : Predicate) :
    predicate.sites.map Site.toOccurrence = predicate.occurrences := by
  have ofPaths : ∀ paths : List Path,
      (paths.map Site.bare).map Site.toOccurrence = paths.map Occurrence.bare := by
    intro paths
    rw [List.map_map]
    rfl
  induction predicate using Predicate.induction with
  | and operands ih =>
    rw [sites_and, occurrences_and, List.map_flatMap]
    exact List.flatMap_congr ih
  | or operands ih =>
    rw [sites_or, occurrences_or, List.map_flatMap]
    exact List.flatMap_congr ih
  | not operand ih => exact ih
  | group operand ih => exact ih
  | test test => exact ofPaths test.paths
  | inQuery tested query negated ih =>
    rw [sites_inQuery, occurrences_inQuery, List.map_append, ofPaths,
      Query.occurrences_sites_of ih]
  | existsIn query negated ih => exact Query.occurrences_sites_of ih

theorem Query.occurrences_sites (query : Query) :
    query.sites.map Site.toOccurrence = query.occurrences :=
  occurrences_sites_of fun condition _ => condition.occurrences_sites

/-- The ranges before a joined one are the first ones of its level. -/
theorem Select.forall_joinSites {α : Type} {P : Site → Prop} {level earlier : List String}
    {joins : List (Join α)}
    (each : ∀ before join after, joins = before ++ join :: after → ∀ path ∈ join.target.paths,
      P ⟨⟨path, [level]⟩, earlier ++ before.map (·.name.value)⟩) :
    ∀ site ∈ joinSites level earlier joins, P site := by
  induction joins generalizing earlier with
  | nil => exact fun _ member => nomatch member
  | cons join rest ih =>
    refine List.forall_mem_append.mpr ⟨fun site member => ?_, ih fun before other after split => ?_⟩
    · obtain ⟨path, among, rfl⟩ := List.mem_map.mp member
      simpa using each [] join rest rfl path among
    · rw [split] at each
      intro path among
      simpa using each (join :: before) other after rfl path among

namespace Query

/-- The paths of a level, but for those of joins. -/
def levelPaths (query : Query) : List Path :=
  query.exprs.flatMap Expr.paths ++ query.conditions.flatMap Predicate.levelPaths

/-- A path of a query is one of a level that sees all its ranges, or one of a join, or one of a
query inside. -/
theorem forall_sites {P : Site → Prop} (query : Query)
    (own : ∀ path ∈ query.levelPaths, P (.own (query.aliases.map (·.value)) path))
    (joined : ∀ before join after, query.joins = before ++ join :: after →
      ∀ path ∈ join.target.paths, P ⟨⟨path, [query.aliases.map (·.value)]⟩,
        query.root.name.value :: before.map (·.name.value)⟩)
    (inside : ∀ inner ∈ query.subqueries, ∀ site ∈ inner.sites,
      P (.inside (query.aliases.map (·.value)) site)) :
    ∀ site ∈ query.sites, P site := by
  have among : ∀ {α : Type} (items : List α) (expr : α → Expr),
      (∀ item ∈ items, expr item ∈ query.exprs) →
      ∀ site ∈ items.flatMap (fun item => (expr item).paths.map
        (Site.own (query.aliases.map (·.value)))), P site := by
    intro α items expr listed site member
    obtain ⟨item, ofItems, found⟩ := List.mem_flatMap.mp member
    obtain ⟨path, ofExpr, rfl⟩ := List.mem_map.mp found
    exact own path (List.mem_append_left _ (List.mem_flatMap.mpr ⟨_, listed item ofItems, ofExpr⟩))
  rw [sites_eq]
  simp only [Select.ownSites, List.forall_mem_append]
  refine ⟨⟨⟨⟨among _ _ fun item member => ?_, Select.forall_joinSites joined⟩,
    among query.groupBy id fun expr member => ?_⟩, among _ _ fun item member => ?_⟩,
    fun site member => ?_⟩
  · exact List.mem_append_left _ (List.mem_append_left _ (List.mem_map_of_mem member))
  · exact List.mem_append_left _ (List.mem_append_right _ member)
  · exact List.mem_append_right _ (List.mem_map_of_mem member)
  · obtain ⟨below, found, rfl⟩ := List.mem_map.mp member
    obtain ⟨condition, ofQuery, listed⟩ := List.mem_flatMap.mp found
    refine condition.forall_sites (P := fun site => P (.inside _ site)) (fun path bare => ?_)
      (fun inner nested => ?_) below listed
    · rw [Site.inside_bare]
      exact own path (List.mem_append_right _ (List.mem_flatMap.mpr ⟨_, ofQuery, bare⟩))
    · exact inside inner (List.mem_flatMap.mpr ⟨_, ofQuery, nested⟩)

/-- The first aliases around a path are the visible ones. -/
theorem visible_prefix (query : Query) :
    ∀ site ∈ query.sites, site.visible <+: site.levels.flatten := by
  induction size : query.nesting using Nat.strongRecOn generalizing query with
  | ind size ih =>
    refine query.forall_sites (P := fun site => site.visible <+: site.levels.flatten)
      (fun path _ => ?_) (fun before join after split path _ => ?_)
      fun inner member site among => ?_
    · simp [Site.own]
    · refine ⟨join.name.value :: after.map (·.name.value), ?_⟩
      simp [Select.aliases, split, Function.comp_def]
    · have below := ih inner.nesting (size ▸ Query.nesting_lt member) inner rfl site among
      exact (List.prefix_append_right_inj _).mpr below

/-- The levels around a path are levels of the query, in their order. -/
theorem levels_sublist (query : Query) :
    ∀ site ∈ query.sites, site.levels.flatten.Sublist query.allAliases := by
  induction size : query.nesting using Nat.strongRecOn generalizing query with
  | ind size ih =>
    have level : [query.aliases.map (·.value)].flatten.Sublist query.allAliases := by
      rw [allAliases_eq, List.flatten_singleton]
      exact List.sublist_append_left _ _
    refine query.forall_sites (P := fun site => site.levels.flatten.Sublist query.allAliases)
      (fun path _ => level) (fun before join after split path _ => level)
      fun inner member site among => ?_
    have below := ih inner.nesting (size ▸ Query.nesting_lt member) inner rfl site among
    have within := List.sublist_flatten_of_mem (List.mem_map_of_mem (f := allAliases) member)
    rw [allAliases_eq_subqueries, List.flatMap_def]
    exact (below.trans within).append_left _

end Query

end QueryGuard
