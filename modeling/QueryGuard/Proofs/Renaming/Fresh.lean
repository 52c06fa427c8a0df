import QueryGuard.Proofs.Renaming.Composing
import QueryGuard.Proofs.Siblings.Adoption
/-!
Renaming to names that a query does not use. Each path starts at the range that it started at, under
its new alias, and the renaming can be undone.
-/

set_option autoImplicit false

namespace QueryGuard

/-! ### New names -/

namespace Renaming

/-- The new names are different, no alias of the query is one of them, and no path starts at one. -/
def Fresh (names : Renaming) (query : Query) : Prop :=
  (names.map (·.2)).Nodup ∧
    ∀ name ∈ names.map (·.2), name ∉ query.allAliases ∧ name ∉ query.starts

instance (names : Renaming) (query : Query) : Decidable (names.Fresh query) :=
  inferInstanceAs (Decidable (_ ∧ _))

/-- The pairs the other way round. -/
def undo (names : Renaming) : Renaming := names.map Prod.swap

theorem apply_eq_or_mem (names : Renaming) (name : String) :
    names.apply name = name ∨ names.apply name ∈ names.map (·.2) := by
  induction names with
  | nil => exact .inl rfl
  | cons pair rest ih =>
    obtain ⟨old, new⟩ := pair
    by_cases same : name = old
    · rw [same, apply_cons_self]
      exact .inr List.mem_cons_self
    · rw [apply_cons_ne same]
      exact ih.imp_right (List.mem_cons_of_mem _)

/-- What becomes of a name that is not a new one leads back to it. -/
theorem apply_undo {names : Renaming} (distinct : (names.map (·.2)).Nodup) {name : String}
    (old : name ∉ names.map (·.2)) : names.undo.apply (names.apply name) = name := by
  induction names with
  | nil => rfl
  | cons pair rest ih =>
    obtain ⟨written, new⟩ := pair
    obtain ⟨unique, others⟩ := List.nodup_cons.mp distinct
    rw [List.map_cons, List.mem_cons, not_or] at old
    by_cases same : name = written
    · rw [same, apply_cons_self]
      exact apply_cons_self new written (undo rest)
    · have other : apply rest name ≠ new := by
        rcases apply_eq_or_mem rest name with kept | among
        · exact fun equal => old.1 (kept.symm.trans equal)
        · exact fun equal => unique (equal ▸ among)
      rw [apply_cons_ne same]
      exact (apply_cons_ne other written (undo rest)).trans (ih others old.2)

namespace Fresh

variable {names : Renaming} {query : Query} {name other : String}

theorem not_alias (fresh : names.Fresh query) (declared : name ∈ query.allAliases) :
    name ∉ names.map (·.2) :=
  fun new => (fresh.2 name new).1 declared

theorem not_start (fresh : names.Fresh query) (start : name ∈ query.starts) :
    name ∉ names.map (·.2) :=
  fun new => (fresh.2 name new).2 start

theorem injective (fresh : names.Fresh query) (here : name ∉ names.map (·.2))
    (there : other ∉ names.map (·.2)) (same : names.apply name = names.apply other) :
    name = other := by
  rw [← apply_undo fresh.1 here, same, apply_undo fresh.1 there]

/-- Only a name that stays becomes one that is not new. -/
theorem eq_of_apply (there : other ∉ names.map (·.2)) (same : names.apply name = other) :
    name = other := by
  rcases names.apply_eq_or_mem name with kept | new
  · exact kept.symm.trans same
  · exact absurd (same ▸ new) there

theorem composes (fresh : names.Fresh query) :
    Composes names names.undo [] query.starts query.allAliases := by
  refine ⟨fun name start => apply_undo fresh.1 (fresh.not_start start),
    fun name declared renamed => ?_⟩
  exact absurd (names.apply_eq_or_mem name) (not_or.mpr ⟨renamed, fresh.not_alias declared⟩)

end Fresh

end Renaming

theorem Query.rename_undo {query : Query} {names : Renaming} (fresh : names.Fresh query) :
    (query.rename names).rename names.undo = query := by
  have undone := rename_rename fresh.composes fun name member =>
    Renaming.apply_undo fresh.1 (fresh.not_alias (query.aliases_subset member))
  exact undone.trans query.rename_nil

/-! ### Where paths start -/

/-- The first names of levels, as many as there are to be. -/
def firstNames : Nat → List (List String) → List (List String)
  | _, [] => []
  | count, level :: inner => level.take count :: firstNames (count - level.length) inner

theorem flatten_firstNames (count : Nat) (levels : List (List String)) :
    (firstNames count levels).flatten = levels.flatten.take count := by
  induction levels generalizing count with
  | nil => exact List.take_nil.symm
  | cons level inner ih =>
    rw [firstNames, List.flatten_cons, ih, List.flatten_cons, List.take_append]

/-- The place of a range that is referred to. -/
def Reference.place? : Reference → Option (Nat × Nat)
  | .range level place => some (level, place)
  | .free _ => none

theorem Reference.place?_of_free {name : String} {levels : List (List String)}
    (absent : name ∉ levels.flatten) : (of name levels).place? = none :=
  congrArg place? (of_free absent)

namespace Site

/-- The aliases that are visible to the path, query by query. -/
def seen (site : Site) : List (List String) := firstNames site.visible.length site.levels

/-- The range that the path starts at: the nearest one of its alias among those that are visible to
it, told by the number of queries around the range's query and by the place in it. -/
def start (site : Site) : Option (Nat × Nat) :=
  (Reference.of site.path.root.value site.seen).place?

end Site

theorem Query.flatten_seen {query : Query} {site : Site} (member : site ∈ query.sites) :
    site.seen.flatten = site.visible := by
  rw [Site.seen, flatten_firstNames]
  exact (List.prefix_iff_eq_take.mp (query.visible_prefix site member)).symm

/-- A path is in scope if it starts at a range. -/
theorem Query.inScope_iff {query : Query} {site : Site} (member : site ∈ query.sites) :
    site.InScope ↔ site.start.isSome := by
  rw [Site.InScope, ← flatten_seen member, Site.start]
  constructor
  · intro declared
    have somewhere : site.path.root.value ∈ (site.seen.drop 0).flatten := declared
    obtain ⟨depth, place, _, found⟩ := Reference.of_range somewhere
    rw [found]
    rfl
  · intro found
    by_contra absent
    rw [Reference.place?_of_free absent] at found
    cases found

/-! ### What becomes of them -/

/-- Names are found where they were, if no others become the same. -/
theorem idxOf_map {f : String → String} {names : List String} {name : String}
    (injective : ∀ other ∈ names, f other = f name → other = name) :
    (names.map f).idxOf (f name) = names.idxOf name := by
  induction names with
  | nil => rfl
  | cons first rest ih =>
    obtain ⟨here, others⟩ := List.forall_mem_cons.mp injective
    rw [List.map_cons]
    by_cases same : first = name
    · rw [same, List.idxOf_cons_self, List.idxOf_cons_self]
    · rw [List.idxOf_cons_ne _ same, List.idxOf_cons_ne _ fun equal => same (here equal), ih others]

namespace Site

/-- The path was renamed with the outermost query around it: by the renaming from outside among the
queries further inside, which keep their aliases. -/
structure Renamed (names : Renaming) (level : List String) (below : Occurrence)
    (written now : Site) : Prop where
  ofWritten : written.toOccurrence = below.inside level
  ofNow : now.toOccurrence = (below.rename names).inside (level.map names.apply)
  visible : now.visible.length = written.visible.length

namespace Renamed

variable {names : Renaming} {level : List String} {below : Occurrence} {written now : Site}

theorem levels (renamed : Renamed names level below written now) :
    written.levels = level :: below.levels ∧
      now.levels = level.map names.apply :: below.levels := by
  refine ⟨congrArg Occurrence.levels renamed.ofWritten, ?_⟩
  rw [renamed.ofNow, Occurrence.inside, Occurrence.Along.levels_rename]

/-- The path starts at the same range, if the queries further inside declare neither aliases of the
outermost one nor new names, and the names of the outermost one stay apart. -/
theorem start_eq (renamed : Renamed names level below written now)
    (apart : ∀ name ∈ level, name ∉ below.levels.flatten)
    (free : ∀ name, names.apply name ≠ name → names.apply name ∉ below.levels.flatten)
    (kept : ∀ name ∈ level, names.apply name = below.path.root.value →
      name = below.path.root.value)
    (injective : ∀ name ∈ level, names.apply name = names.apply below.path.root.value →
      name = below.path.root.value) : now.start = written.start := by
  obtain ⟨before, after⟩ := renamed.levels
  generalize size : written.visible.length = count
  have inner : (firstNames (count - level.length) below.levels).flatten ⊆ below.levels.flatten := by
    rw [flatten_firstNames]
    exact List.take_subset _ _
  have root : written.path.root.value = below.path.root.value :=
    congrArg (·.path.root.value) renamed.ofWritten
  have path : now.path = (below.rename names).path := congrArg (·.path) renamed.ofNow
  rw [start, start, seen, seen, renamed.visible, size, before, after, firstNames, firstNames,
    List.length_map, ← List.map_take, root, path]
  generalize firstNames (count - level.length) below.levels = further at inner
  have own : level.take count ⊆ level := List.take_subset _ _
  by_cases hidden : below.path.root.value ∈ below.levels.flatten
  · -- a query further inside declares the alias, so the path was not renamed
    rw [Occurrence.rename, if_pos hidden]
    by_cases nearer : below.path.root.value ∈ further.flatten
    · have declared : below.path.root.value ∈ (further.drop 0).flatten := nearer
      obtain ⟨depth, place, _, found⟩ := Reference.of_range declared
      rw [Reference.of_inner found, Reference.of_inner found]
    · have outside : below.path.root.value ∉ level := fun here => apart _ here hidden
      rw [Reference.place?_of_free, Reference.place?_of_free]
      · rw [List.flatten_cons, List.mem_append, not_or]
        exact ⟨fun here => outside (own here), nearer⟩
      · rw [List.flatten_cons, List.mem_append, not_or, List.mem_map]
        refine ⟨?_, nearer⟩
        rintro ⟨name, here, same⟩
        exact outside (kept name (own here) same ▸ own here)
  · rw [Occurrence.rename, if_neg hidden]
    change (Reference.of (names.apply below.path.root.value) _).place? = _
    have nearer : below.path.root.value ∉ further.flatten := fun found => hidden (inner found)
    have nowhere : names.apply below.path.root.value ∉ further.flatten := by
      intro found
      by_cases same : names.apply below.path.root.value = below.path.root.value
      · exact nearer (same ▸ found)
      · exact free _ same (inner found)
    by_cases here : below.path.root.value ∈ level.take count
    · rw [Reference.of_here nearer here, Reference.of_here nowhere (List.mem_map_of_mem here),
        idxOf_map fun name among => injective name (own among)]
    · rw [Reference.place?_of_free, Reference.place?_of_free]
      · rw [List.flatten_cons, List.mem_append, not_or]
        exact ⟨here, nearer⟩
      · rw [List.flatten_cons, List.mem_append, not_or, List.mem_map]
        refine ⟨?_, nowhere⟩
        rintro ⟨name, among, same⟩
        exact here (injective name (own among) same ▸ among)

end Renamed

end Site

namespace Query

/-- The queries around a path, but for the outermost one, declare what queries inside it do. -/
theorem below_sublist {query : Query} {below : Occurrence}
    (member : below ∈ query.levelOccurrences) :
    below.levels.flatten.Sublist (query.subqueries.flatMap allAliases) := by
  have among : below.inside (query.aliases.map (·.value)) ∈ query.occurrences := by
    rw [occurrences_eq]
    exact List.mem_map_of_mem member
  have whole := levels_sublist_of_mem among
  rw [allAliases_eq_subqueries] at whole
  exact (List.append_sublist_append_left _).mp whole

theorem root_mem_starts {query : Query} {below : Occurrence}
    (member : below ∈ query.levelOccurrences) : below.path.root.value ∈ query.starts := by
  rw [starts, occurrences_eq, List.map_map]
  exact List.mem_map_of_mem (f := (·.path.root.value) ∘ Occurrence.inside _) member

/-- All paths of a query are renamed with it. -/
theorem sites_renamed (query : Query) (names : Renaming) :
    List.Forall₂ (fun written now : Site => ∃ below ∈ query.levelOccurrences,
        Site.Renamed names (query.aliases.map (·.value)) below written now)
      query.sites (query.rename names).sites := by
  have first : query.sites.map Site.toOccurrence =
      query.levelOccurrences.map (.inside (query.aliases.map (·.value))) := by
    rw [occurrences_sites, occurrences_eq]
  have second : (query.rename names).sites.map Site.toOccurrence =
      query.levelOccurrences.map fun below =>
        (below.rename names).inside ((query.aliases.map (·.value)).map names.apply) := by
    rw [occurrences_sites, occurrences_eq, levelOccurrences_rename, aliases_rename, List.map_map,
      List.map_map, List.map_map]
    rfl
  have visible : (query.rename names).sites.map (·.visible.length) =
      query.sites.map (·.visible.length) := by
    have shapes : (query.rename names).sites.map Site.blank = query.sites.map Site.blank := by
      rw [← sites_shape, ← sites_shape, shape_rename]
    have lengths := congrArg (List.map (·.visible.length)) shapes
    rw [List.map_map, List.map_map] at lengths
    simpa only [Function.comp_def, Site.blank, List.length_map] using lengths
  have length : query.sites.length = query.levelOccurrences.length := by
    simpa only [List.length_map] using congrArg List.length first
  have length' : (query.rename names).sites.length = query.levelOccurrences.length := by
    simpa only [List.length_map] using congrArg List.length second
  refine List.forall₂_iff_get.mpr ⟨length.trans length'.symm, fun index here there => ?_⟩
  have within : index < query.levelOccurrences.length := length ▸ here
  refine ⟨query.levelOccurrences[index], List.getElem_mem within, ?_, ?_, ?_⟩
  · simpa [here, within] using congrArg (·[index]?) first
  · simpa [there, within] using congrArg (·[index]?) second
  · simpa [here, there] using congrArg (·[index]?) visible

/-- New names that a query does not use, and no query inside it that declares an alias of its
outermost level: renaming changes nothing but aliases, each path starts at the range that it started
at, which is in scope if it was, and the renaming can be undone. -/
theorem rename_fresh {query : Query} {names : Renaming} (fresh : names.Fresh query)
    (apart : ∀ name ∈ query.aliases.map (·.value), ∀ inner ∈ query.subqueries,
      name ∉ inner.allAliases) :
    (query.rename names).shape = query.shape ∧
      List.Forall₂ (fun written now : Site =>
          now.levels = written.levels.modifyHead (List.map names.apply) ∧
            now.start = written.start ∧ (now.InScope ↔ written.InScope))
        query.sites (query.rename names).sites ∧
      (query.rename names).rename names.undo = query := by
  have renamed := query.sites_renamed names
  rw [List.forall₂_iff_zip] at renamed
  refine ⟨query.shape_rename names,
    List.forall₂_iff_zip.mpr ⟨renamed.1, fun {written now} pair => ?_⟩, rename_undo fresh⟩
  obtain ⟨below, member, holds⟩ := renamed.2 pair
  obtain ⟨first, second⟩ := List.of_mem_zip pair
  have declares := (below_sublist member).subset
  have old : ∀ name ∈ query.aliases.map (·.value), name ∉ names.map (·.2) := fun name own =>
    fresh.not_alias (query.aliases_subset own)
  have start := fresh.not_start (root_mem_starts member)
  have same : now.start = written.start := by
    refine holds.start_eq (fun name own inside => ?_) (fun name renamed inside => ?_)
      (fun name _ => Renaming.Fresh.eq_of_apply start)
      fun name own => fresh.injective (old name own) start
    · obtain ⟨inner, among, found⟩ := List.mem_flatMap.mp (declares inside)
      exact apart name own inner among found
    · have declared : names.apply name ∈ query.allAliases := by
        rw [allAliases_eq_subqueries]
        exact List.mem_append_right _ (declares inside)
      exact absurd (names.apply_eq_or_mem name) (not_or.mpr ⟨renamed, fresh.not_alias declared⟩)
  obtain ⟨before, after⟩ := holds.levels
  refine ⟨?_, same, ?_⟩
  · rw [before, after, List.modifyHead_cons]
  · rw [inScope_iff second, inScope_iff first, same]

/-- Queries side by side declare one alias, a path starts at no range, and one pair renames an alias
of queries inside only. -/
theorem rename_fresh_siblings :
    ∃ query,
      Query.parse "select c from Customer c join c.orders m on m.total > u.rank where exists (select o from Order o where o.customer = c and o.total > m.total) and exists (select o from Order o where o.buyer = m)"
        2 = .ok query ∧
      Renaming.Fresh [("c", "k"), ("m", "n"), ("u", "w"), ("o", "z")] query ∧
      (∀ name ∈ query.aliases.map (·.value), ∀ inner ∈ query.subqueries,
        name ∉ inner.allAliases) ∧
      (query.rename [("c", "k"), ("m", "n"), ("u", "w"), ("o", "z")]).text = "select k from Customer k join k.orders n on n.total > w.rank where exists (select o from Order o where o.customer = k and o.total > n.total) and exists (select o from Order o where o.buyer = n)" ∧
      (query.rename [("c", "k"), ("m", "n"), ("u", "w"), ("o", "z")]).shape = query.shape ∧
      List.Forall₂ (fun written now : Site =>
          now.levels = written.levels.modifyHead
              (List.map (Renaming.apply [("c", "k"), ("m", "n"), ("u", "w"), ("o", "z")])) ∧
            now.start = written.start ∧ (now.InScope ↔ written.InScope))
        query.sites (query.rename [("c", "k"), ("m", "n"), ("u", "w"), ("o", "z")]).sites ∧
      (query.rename [("c", "k"), ("m", "n"), ("u", "w"), ("o", "z")]).rename
          [("k", "c"), ("n", "m"), ("w", "u"), ("z", "o")] = query := by
  have runs : ((Query.parse "select c from Customer c join c.orders m on m.total > u.rank where exists (select o from Order o where o.customer = c and o.total > m.total) and exists (select o from Order o where o.buyer = m)"
      2).toOption.map fun query =>
        (decide (Renaming.Fresh [("c", "k"), ("m", "n"), ("u", "w"), ("o", "z")] query),
          decide (∀ name ∈ query.aliases.map fun name : Name => name.value,
            ∀ inner ∈ query.subqueries, name ∉ inner.allAliases),
          (query.rename [("c", "k"), ("m", "n"), ("u", "w"), ("o", "z")]).text)) =
      some (true, true, "select k from Customer k join k.orders n on n.total > w.rank where exists (select o from Order o where o.customer = k and o.total > n.total) and exists (select o from Order o where o.buyer = n)") := by
    decide +kernel
  obtain ⟨query, parsed, result⟩ := Option.map_eq_some_iff.mp runs
  obtain ⟨fresh, result⟩ := Prod.mk.inj result
  obtain ⟨apart, text⟩ := Prod.mk.inj result
  have fresh := of_decide_eq_true fresh
  have apart := of_decide_eq_true apart
  obtain ⟨shape, starts, undone⟩ := Query.rename_fresh fresh apart
  exact ⟨query, ok_of_toOption parsed, fresh, apart, text, shape, starts, undone⟩

end Query

end QueryGuard
