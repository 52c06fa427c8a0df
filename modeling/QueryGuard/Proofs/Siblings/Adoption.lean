import QueryGuard.Proofs.Rewriting.Reachable
import QueryGuard.Proofs.Siblings.References
/-!
Which paths of a bound query were in scope before queries side by side were told apart: all whose
alias is declared anywhere. An alias that is declared nowhere may be adopted, when a new alias for a
query is equal to it.
-/

set_option autoImplicit false

namespace QueryGuard

/-! ### The shape of paths -/

/-- The site without aliases. -/
def Site.blank (site : Site) : Site :=
  ⟨⟨site.path.blank, site.levels.map (·.map fun _ => "")⟩, site.visible.map fun _ => ""⟩

namespace Select

variable {α : Type}

theorem aliases_blank (query : Select α) :
    query.blank.aliases.map (·.value) = (query.aliases.map (·.value)).map fun _ => "" := by
  simp only [aliases, blank, List.map_cons, List.map_map]
  rfl

theorem joinSites_blank (level earlier : List String) (joins : List (Join α)) :
    joinSites (level.map fun _ => "") (earlier.map fun _ => "") (joins.map fun join =>
        { join with target := join.target.blank, name := join.name.blank }) =
      (joinSites level earlier joins).map Site.blank := by
  induction joins generalizing earlier with
  | nil => rfl
  | cons join rest ih =>
    have target : join.target.blank.paths = join.target.paths.map Path.blank := by
      cases join.target <;> rfl
    have further := ih (earlier ++ [join.name.value])
    rw [List.map_append] at further
    rw [List.map_cons, joinSites, joinSites, List.map_append, ← further, target, List.map_map,
      List.map_map]
    rfl

theorem ownSites_blank (query : Select α) :
    query.blank.ownSites = query.ownSites.map Site.blank := by
  have joined := joinSites_blank (query.aliases.map (·.value)) [query.root.name.value] query.joins
  have own : ∀ (level : List String) (expr : Expr),
      (expr.mapPaths Path.blank).paths.map (Site.own (level.map fun _ => "")) =
        (expr.paths.map (Site.own level)).map Site.blank := by
    intro level expr
    rw [Expr.paths_mapPaths, List.map_map, List.map_map]
    rfl
  rw [ownSites, ownSites]
  simp only [aliases_blank, List.map_append, ← joined, List.map_flatMap]
  simp only [blank, List.flatMap_map, own]
  rfl

end Select

theorem Site.blank_inside (level : List String) (site : Site) :
    (site.inside level).blank = site.blank.inside (level.map fun _ => "") := by
  simp only [blank, inside, List.map_append]
  rfl

theorem Query.sites_shape_of {query : Query}
    (each : ∀ condition ∈ query.conditions,
      condition.shape.sites = condition.sites.map Site.blank) :
    query.shape.sites = query.sites.map Site.blank := by
  have level : query.shape.aliases.map (·.value) =
      (query.aliases.map (·.value)).map fun _ => "" := by
    rw [shape_eq, Select.aliases_blank, Select.aliases_map]
  have own : query.shape.ownSites = query.ownSites.map Site.blank := by
    rw [shape_eq, Select.ownSites_blank, Select.ownSites_map]
  have nested : (query.conditions.map Predicate.shape).flatMap Predicate.sites =
      (query.conditions.flatMap Predicate.sites).map Site.blank := by
    rw [List.flatMap_map, List.map_flatMap]
    exact List.flatMap_congr each
  have inside : ∀ (level : List String) (sites : List Site),
      (sites.map Site.blank).map (.inside (level.map fun _ => "")) =
        (sites.map (.inside level)).map Site.blank := by
    intro level sites
    rw [List.map_map, List.map_map]
    exact List.map_congr_left fun site _ => (site.blank_inside level).symm
  rw [sites_eq, sites_eq, conditions_shape, level, own, nested, inside, List.map_append]

/-- The sites of a shape are those of the condition, without aliases. -/
theorem Predicate.sites_shape (predicate : Predicate) :
    predicate.shape.sites = predicate.sites.map Site.blank := by
  have all : ∀ operands : List Predicate,
      (∀ operand ∈ operands, operand.shape.sites = operand.sites.map Site.blank) →
      (operands.map shape).flatMap sites = (operands.flatMap sites).map Site.blank := by
    intro operands each
    rw [List.flatMap_map, List.map_flatMap]
    exact List.flatMap_congr each
  have bare : ∀ paths : List Path,
      (paths.map Path.blank).map Site.bare = (paths.map Site.bare).map Site.blank := by
    intro paths
    rw [List.map_map, List.map_map]
    rfl
  induction predicate using Predicate.induction with
  | and operands ih => rw [shape_and, sites_and, sites_and, all operands ih]
  | or operands ih => rw [shape_or, sites_or, sites_or, all operands ih]
  | not operand ih => exact ih
  | group operand ih => exact ih
  | test test =>
    change (test.mapExprs (Expr.mapPaths Path.blank)).paths.map Site.bare = _
    rw [Test.paths_mapExprs, bare]
    rfl
  | inQuery tested query negated ih =>
    rw [shape_inQuery, sites_inQuery, sites_inQuery, Expr.paths_mapPaths, bare, List.map_append,
      Query.sites_shape_of ih]
  | existsIn query negated ih =>
    rw [shape_existsIn, sites_existsIn, sites_existsIn, Query.sites_shape_of ih]

theorem Query.sites_shape (query : Query) : query.shape.sites = query.sites.map Site.blank :=
  sites_shape_of fun condition _ => condition.sites_shape

/-! ### Places among all levels around a path -/

/-- A declared alias becomes the one in its place, if no new alias is a declared one. -/
theorem follow_place {declared : List String} {levels used : List (List String)} {name : String}
    (kept : List.Forall₂ (List.Forall₂ fun written used => used = written ∨ used ∉ declared)
      levels used)
    (among : levels.flatten ⊆ declared) (scope : name ∈ levels.flatten) :
    ∃ place : Nat, levels.flatten[place]? = some name ∧
      used.flatten[place]? = some (follow levels used name) := by
  induction kept with
  | nil => cases scope
  | @cons level now inner rest here kept ih =>
    rw [List.flatten_cons] at among scope ⊢
    obtain ⟨_, further⟩ := List.append_subset.mp among
    rw [follow, List.flatten_cons]
    by_cases inside : name ∈ inner.flatten
    · rw [if_pos inside]
      obtain ⟨place, first, second⟩ := ih further inside
      refine ⟨level.length + place, ?_, ?_⟩
      · rw [List.getElem?_append_right (Nat.le_add_right _ _), Nat.add_sub_cancel_left, first]
      · rw [here.length_eq, List.getElem?_append_right (Nat.le_add_right _ _),
          Nat.add_sub_cancel_left, second]
    · rw [if_neg inside]
      have own : name ∈ level := (List.mem_append.mp scope).resolve_right inside
      have placed := Renaming.getElem?_idxOf_zip here.length_eq own
      have outside : Renaming.apply (level.zip now) name ∉ inner.flatten := by
        intro captured
        obtain ⟨written, found, same⟩ := getElem?_of_forall₂ here placed
        rw [List.getElem?_idxOf own] at found
        obtain rfl := Option.some.inj found
        rcases same with same | new
        · exact inside (same ▸ captured)
        · exact new (further captured)
      have shape : SameShape inner rest := kept.imp fun _ _ each => each.length_eq
      rw [follow_free shape outside]
      refine ⟨level.idxOf name, ?_, ?_⟩
      · rw [List.getElem?_append_left (List.idxOf_lt_length_of_mem own), List.getElem?_idxOf own]
      · rw [List.getElem?_append_left (here.length_eq ▸ List.idxOf_lt_length_of_mem own), placed]

/-- A path keeps an alias that none of the levels around it declares. -/
theorem Occurrence.Renamed.root_outside {declared : List String} {before after : Occurrence}
    (renamed : Renamed declared before after)
    (outside : before.path.root.value ∉ before.levels.flatten) :
    after.path.root.value = before.path.root.value :=
  renamed.root.trans (follow_free renamed.shape outside)

namespace Site

variable {declared : List String} {written now : Site}

/-- A path whose alias is declared anywhere was in scope if it is in scope now. -/
theorem inScope_of_renamed
    (renamed : Occurrence.Renamed declared written.toOccurrence now.toOccurrence)
    (among : written.levels.flatten ⊆ declared) (distinct : now.levels.flatten.Nodup)
    (first : written.visible <+: written.levels.flatten)
    (second : now.visible <+: now.levels.flatten)
    (length : written.visible.length = now.visible.length) (scope : now.InScope)
    (listed : written.path.root.value ∈ declared) : written.InScope := by
  obtain ⟨index, below, seen⟩ := List.getElem_of_mem scope
  have visible : now.levels.flatten[index]? = some now.path.root.value := by
    obtain ⟨further, same⟩ := second
    rw [← same, List.getElem?_append_left below, List.getElem?_eq_getElem below, seen]
  by_cases around : written.path.root.value ∈ written.levels.flatten
  · obtain ⟨place, here, there⟩ := follow_place renamed.kept among around
    rw [← renamed.root, ← visible] at there
    have within : place < now.levels.flatten.length :=
      (List.getElem?_eq_some_iff.mp (there.trans visible)).1
    obtain rfl := (List.getElem?_inj within distinct).mp there
    obtain ⟨further, same⟩ := first
    rw [← same, List.getElem?_append_left (length ▸ below)] at here
    exact List.mem_of_getElem? here
  · -- the alias that it has now would be one that was declared at another place
    rw [renamed.root_outside around] at visible
    obtain ⟨name, found, kept⟩ := getElem?_of_forall₂ (List.rel_flatten renamed.kept) visible
    rcases kept with same | new
    · exact absurd (same ▸ List.mem_of_getElem? found) around
    · exact absurd listed new

end Site

/-- When a query is bound, all its paths are in scope as they are then. Before queries side by side
were told apart, exactly those were whose alias is declared anywhere in the query; the others kept
their alias. -/
theorem Model.bind_adopts {schema : Schema} {query : Query} {parameters : ParameterMap}
    {bound : Model} (result : Model.bind schema query parameters = .ok bound) :
    List.Forall₂ (fun written now : Site =>
      now.InScope ∧ (written.InScope ↔ written.path.root.value ∈ query.allAliases) ∧
        (¬ written.InScope → now.path.root.value = written.path.root.value))
      query.sites bound.query.sites := by
  have distinct : query.separateSiblings.allAliases.Nodup := by
    rw [← ofTree_aliases result]
    exact ofTree_nodup result
  have renamed := Query.separateSiblings_renamed (query.nodup_separateSiblings.mp distinct)
  have shapes : List.Forall₂ Eq (query.sites.map Site.blank)
      (query.separateSiblings.sites.map Site.blank) := by
    rw [List.forall₂_eq_eq_eq, ← Query.sites_shape, ← Query.sites_shape,
      query.shape_separateSiblings]
  rw [Siblings.QueryRenamed, ← Query.occurrences_sites, ← Query.occurrences_sites] at renamed
  rw [List.forall₂_map_left_iff, List.forall₂_map_right_iff, List.forall₂_iff_zip] at renamed shapes
  rw [ofTree_query result]
  refine List.forall₂_iff_zip.mpr ⟨renamed.1, fun {written now} member => ?_⟩
  obtain ⟨first, second⟩ := List.of_mem_zip member
  have along := renamed.2 member
  have within := query.levels_sublist written first
  have length : written.visible.length = now.visible.length := by
    have same := congrArg (·.visible.length) (shapes.2 member)
    simpa only [Site.blank, List.length_map] using same
  have scope : now.InScope := by
    obtain ⟨range, _, named, visible, _⟩ := ofTree_resolves result now second
    rwa [named] at visible
  have exact : written.InScope ↔ written.path.root.value ∈ query.allAliases := by
    constructor
    · intro scope
      exact within.subset ((query.visible_prefix written first).subset scope)
    · exact Site.inScope_of_renamed along within.subset
        (distinct.sublist (Query.levels_sublist _ now second)) (query.visible_prefix written first)
        (Query.visible_prefix _ now second) length scope
  refine ⟨scope, exact, fun outside => along.root_outside fun around => ?_⟩
  exact outside (exact.mpr (within.subset around))

/-- The second query inside gets the alias o1, which makes a range for a path that had none. -/
theorem Model.bind_adopts_shop :
    ∃ query bound,
      Query.parse "select c from Customer c where exists (select o from Order o where o.customer = c) and exists (select o from Order o where o1.total > 5)"
        1 = .ok query ∧
      Model.bind .shop query .empty = .ok bound ∧
      bound.query.text = "select c from Customer c where exists (select o from Order o where o.customer = c) and exists (select o1 from Order o1 where o1.total > 5)" ∧
      (query.sites.filter fun site => ¬ site.InScope).map (·.path.dotted) = ["total"] ∧
      List.Forall₂ (fun written now : Site =>
        now.InScope ∧ (written.InScope ↔ written.path.root.value ∈ query.allAliases) ∧
          (¬ written.InScope → now.path.root.value = written.path.root.value))
        query.sites bound.query.sites := by
  have runs : ((Query.parse "select c from Customer c where exists (select o from Order o where o.customer = c) and exists (select o from Order o where o1.total > 5)"
      1).toOption.bind fun query => (Model.bind .shop query .empty).toOption.map fun bound =>
        (bound.query.text, (query.sites.filter fun site => ¬ site.InScope).map (·.path.dotted))) =
      some ("select c from Customer c where exists (select o from Order o where o.customer = c) and exists (select o1 from Order o1 where o1.total > 5)", ["total"]) := by
    decide +kernel
  obtain ⟨query, parsed, runs⟩ := Option.bind_eq_some_iff.mp runs
  obtain ⟨bound, bind, result⟩ := Option.map_eq_some_iff.mp runs
  obtain ⟨text, outside⟩ := Prod.mk.inj result
  exact ⟨query, bound, ok_of_toOption parsed, ok_of_toOption bind, text, outside,
    Model.bind_adopts (ok_of_toOption bind)⟩

end QueryGuard
