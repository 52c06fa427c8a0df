import QueryGuard.Proofs.Binding.Resolution
import QueryGuard.Proofs.Rewriting.Coverage
import QueryGuard.Proofs.Siblings.Keeping
/-!
Telling queries side by side apart changes nothing but aliases, and each path starts at the range
that it started at before.
-/

set_option autoImplicit false

namespace QueryGuard

/-! ### Shape -/

namespace Siblings

theorem level_shape {nested : List Chosen → Query → StateM State Query} {visible : List Chosen}
    {query : Query}
    (inside : ∀ visible inner, (steady fun _ => True).of (nested visible inner)
      fun result => result.shape = inner.shape) :
    (steady fun _ => True).of (level nested visible query)
      fun result => result.shape = query.shape := by
  intro before result after run _
  obtain ⟨chosen, between, reached, _, replaced, _⟩ := of_level_run run
  have ensures := (query.rename (changes chosen)).mapSubqueries_ensures (steady fun _ => True)
    fun inner _ => inside (chosen ++ visible) inner
  have same := (ensures between result reached replaced trivial).1
  exact ⟨(Query.Replaced.shape same).trans (query.shape_rename _), trivial⟩

theorem levels_shape (depth : Nat) (visible : List Chosen) (query : Query) :
    (steady fun _ => True).of (levels depth visible query)
      fun result => result.shape = query.shape := by
  induction depth generalizing visible query with
  | zero => exact level_shape fun _ _ => (steady _).pure rfl
  | succ depth ih => exact level_shape ih

end Siblings

theorem Query.shape_separateSiblings (query : Query) :
    query.separateSiblings.shape = query.shape :=
  (Siblings.levels_shape query.nesting [] query ⟨query.allAliases, []⟩ _ _ rfl trivial).1

/-! ### Paths -/

theorem getElem?_of_forall₂ {α β : Type} {related : α → β → Prop} {items : List α}
    {results : List β} (each : List.Forall₂ related items results) {place : Nat} {result : β}
    (found : results[place]? = some result) :
    ∃ item, items[place]? = some item ∧ related item result := by
  induction each generalizing place with
  | nil => cases found
  | cons first _ ih =>
    cases place with
    | zero =>
      obtain rfl := Option.some.inj found
      exact ⟨_, rfl, first⟩
    | succ place => exact ih found

/-- The range that an alias refers to has it. -/
theorem Reference.aliasAt_of {name : String} {levels : List (List String)} {depth place : Nat}
    (found : of name levels = .range depth place) : aliasAt levels depth place = some name := by
  induction levels generalizing depth with
  | nil => cases found
  | cons level inner ih =>
    rw [of] at found
    split at found
    · rename_i inside
      obtain ⟨rfl, rfl⟩ := Reference.range.inj found
      exact ih inside
    · split at found
      · rename_i declared
        obtain ⟨rfl, rfl⟩ := Reference.range.inj found
        exact List.getElem?_idxOf declared
      · cases found

namespace Occurrence

/-- The path was renamed along with the levels around it, where each alias is kept or becomes one
that was not declared. -/
structure Renamed (declared : List String) (before after : Occurrence) : Prop
    extends Along before after where
  kept : List.Forall₂ (List.Forall₂ fun written used => used = written ∨ used ∉ declared)
    before.levels after.levels

namespace Renamed

variable {declared : List String} {before after : Occurrence}

theorem bare (path : Path) : Renamed declared (.bare path) (.bare path) := ⟨.bare path, .nil⟩

theorem inside {level now : List String} {changes : Renaming}
    (renamed : Renamed declared (before.rename changes) after)
    (kept : List.Forall₂ (fun written used => used = written ∨ used ∉ declared) level now)
    (renames : ∀ name, changes.apply name = Renaming.apply (level.zip now) name) :
    Renamed declared (before.inside level) (after.inside now) :=
  ⟨renamed.toAlong.inside kept.length_eq renames,
    .cons kept (Along.levels_rename changes before ▸ renamed.kept)⟩

/-- A range keeps its alias or gets one that no level around the path declared. -/
theorem aliasAt_kept (renamed : Renamed declared before after) {depth place : Nat} {now : String}
    (used : aliasAt after.levels depth place = some now) :
    ∃ written, aliasAt before.levels depth place = some written ∧
      (now = written ∨ now ∉ declared) := by
  obtain ⟨level, ofUsed, placed⟩ := Option.bind_eq_some_iff.mp used
  obtain ⟨written, ofWritten, kept⟩ := getElem?_of_forall₂ renamed.kept ofUsed
  obtain ⟨name, found, same⟩ := getElem?_of_forall₂ kept placed
  exact ⟨name, Option.bind_eq_some_iff.mpr ⟨written, ofWritten, found⟩, same⟩

/-- A path that starts at a range does so afterwards, at the same range. -/
theorem reference (renamed : Renamed declared before after)
    (among : before.levels.flatten ⊆ declared) (distinct : after.levels.flatten.Nodup)
    (scope : before.path.root.value ∈ before.levels.flatten) :
    after.reference = before.reference := by
  obtain ⟨depth, place, _, starts⟩ := Reference.of_range (n := 0) scope
  obtain ⟨now, placed, keeps, _⟩ := follow_range renamed.shape distinct starts
  have reference : before.reference = .range depth place := starts
  rw [reference, Occurrence.reference, renamed.root]
  apply keeps
  intro further
  obtain ⟨written, found, same⟩ := renamed.aliasAt_kept placed
  rcases same with rfl | new
  · -- the nearest declaration would be another one
    rw [Reference.aliasAt_of starts] at found
    obtain rfl := Option.some.inj found
    obtain ⟨nearer, _, deep, other⟩ := Reference.of_range further
    obtain ⟨rfl, _⟩ := Reference.range.inj (other.symm.trans starts)
    omega
  · obtain ⟨level, ofInner, member⟩ := List.mem_flatten.mp further
    exact new (among (List.mem_flatten.mpr ⟨level, List.mem_of_mem_drop ofInner, member⟩))

end Renamed

end Occurrence

namespace Siblings

/-- All paths of the second query are renamed along with the levels around them. -/
def QueryRenamed (declared : List String) (query result : Query) : Prop :=
  List.Forall₂ (Occurrence.Renamed declared) query.occurrences result.occurrences

theorem level_renamed {declared : List String} {nested : List Chosen → Query → StateM State Query}
    {visible : List Chosen} {query : Query} (among : query.allAliases ⊆ declared)
    (apart : query.ApartFrom (visible.map (·.1)))
    (inside : ∀ inner : Query, inner.nesting < query.nesting → inner.allAliases ⊆ declared →
      ∀ visible : List Chosen, inner.ApartFrom (visible.map (·.1)) →
        (steady (Sound declared visible)).of (nested visible inner)
          (QueryRenamed declared inner)) :
    (steady (Sound declared visible)).of (level nested visible query)
      (QueryRenamed declared query) := by
  intro before result after run sound
  obtain ⟨chosen, between, reached, choice, replaced, rfl⟩ := of_level_run run
  have own : query.aliases.map (·.value) ⊆ declared := List.Subset.trans query.aliases_subset among
  obtain ⟨written, _, extended, _⟩ := sound.chosen own choice
  obtain ⟨new, others⟩ := (query.apartFrom_rename (changes chosen)).mp apart
  have distinct : (chosen.map (·.1)).Nodup := written ▸ new.1
  have each : ∀ inner ∈ (query.rename (changes chosen)).subqueries,
      (steady (Sound declared (chosen ++ visible))).of (nested (chosen ++ visible) inner)
        (QueryRenamed declared inner) := by
    intro inner member
    obtain ⟨smaller, aliases⟩ := Query.smaller_of_rename member
    have further := others inner member
    rw [← written, ← List.map_append] at further
    exact inside inner smaller (List.Subset.trans aliases among) (chosen ++ visible) further
  have ensures := (query.rename (changes chosen)).mapSubqueries_ensures
    (steady (Sound declared (chosen ++ visible))) each
  obtain ⟨same, reaches⟩ := ensures between result reached replaced extended
  have kept : List.Forall₂ (fun written used => used = written ∨ used ∉ declared)
      (query.aliases.map (·.value)) (chosen.map (·.2)) := by
    rw [← written, List.forall₂_map_left_iff, List.forall₂_map_right_iff, List.forall₂_same]
    exact fun pair member =>
      (extended.kept pair (List.mem_append_left _ member)).imp id And.left
  have renames : ∀ name, (changes chosen).apply name =
      Renaming.apply ((query.aliases.map (·.value)).zip (chosen.map (·.2))) name := by
    intro name
    rw [← written, Constraint.zip_chosen, Constraint.apply_changes distinct]
  refine ⟨Query.occurrences_level Occurrence.Renamed.bare ?_
    (fun _ _ renamed => renamed.inside kept renames) same, reaches.leave⟩
  rw [← written]
  exact map_apply_changes distinct

theorem levels_renamed {declared : List String} (depth : Nat) {query : Query}
    (within : query.nesting ≤ depth) (among : query.allAliases ⊆ declared) (visible : List Chosen)
    (apart : query.ApartFrom (visible.map (·.1))) :
    (steady (Sound declared visible)).of (levels depth visible query)
      (QueryRenamed declared query) := by
  induction depth generalizing query visible with
  | zero =>
    refine level_renamed among apart fun inner smaller => ?_
    omega
  | succ depth ih =>
    refine level_renamed among apart fun inner smaller among visible apart => ?_
    exact ih (by omega) among visible apart

end Siblings

namespace Query

theorem separateSiblings_sound (query : Query) :
    Siblings.Sound query.allAliases [] ⟨query.allAliases, []⟩ :=
  ⟨List.Subset.refl _, List.nil_subset _, List.nil_subset _, fun _ member => nomatch member⟩

theorem separateSiblings_renamed {query : Query} (once : query.DeclaresOnce) :
    Siblings.QueryRenamed query.allAliases query query.separateSiblings :=
  (Siblings.levels_renamed query.nesting (Nat.le_refl _) (List.Subset.refl _) []
    (query.apartFrom_nil.mpr once) ⟨query.allAliases, []⟩ _ _ rfl query.separateSiblings_sound).1

/-- No query has been left yet when the outermost level gets its aliases: only queries inside its
conditions change. -/
theorem separateSiblings_replaced (query : Query) :
    query.Replaced (fun _ _ => True) query.separateSiblings := by
  have run : (Siblings.levels query.nesting [] query).run ⟨query.allAliases, []⟩ =
      (query.separateSiblings, _) := rfl
  have level : ∃ nested : List Siblings.Chosen → Query → StateM Siblings.State Query,
      Siblings.levels query.nesting = Siblings.level nested := by
    cases query.nesting with
    | zero => exact ⟨_, rfl⟩
    | succ depth => exact ⟨_, rfl⟩
  obtain ⟨nested, same⟩ := level
  rw [same] at run
  obtain ⟨chosen, between, reached, choice, replaced, _⟩ := Siblings.of_level_run run
  obtain ⟨_, closed, extended, _⟩ := query.separateSiblings_sound.chosen query.aliases_subset choice
  have nothing : Siblings.changes chosen = [] := by
    rw [Siblings.changes, List.filter_eq_nil_iff]
    intro pair member
    rcases extended.kept pair (List.mem_append_left _ member) with kept | ⟨_, left⟩
    · simp [kept]
    · rw [closed] at left
      cases left
  rw [nothing, rename_nil] at replaced
  have each : ∀ inner ∈ query.subqueries, (Siblings.steady fun _ => True).of
      (nested (chosen ++ []) inner) ((fun _ _ => True : Query → Query → Prop) inner) :=
    fun _ _ _ _ _ _ _ => ⟨trivial, trivial⟩
  have ensures := query.mapSubqueries_ensures (Siblings.steady fun _ => True) each
  exact (ensures between _ reached replaced trivial).1

theorem aliases_separateSiblings (query : Query) :
    query.separateSiblings.aliases = query.aliases :=
  Select.Related.aliases query.separateSiblings_replaced

theorem items_separateSiblings (query : Query) : query.separateSiblings.items = query.items :=
  query.separateSiblings_replaced.items

theorem levels_sublist_of_mem {query : Query} {occurrence : Occurrence}
    (member : occurrence ∈ query.occurrences) :
    occurrence.levels.flatten.Sublist query.allAliases := by
  rw [← occurrences_sites] at member
  obtain ⟨site, among, rfl⟩ := List.mem_map.mp member
  exact query.levels_sublist site among

/-- Paths that start at a range still do so when queries side by side are told apart, at the same
range. -/
theorem separateSiblings_refers {query : Query} (once : query.DeclaresOnce) :
    List.Forall₂ (fun before after : Occurrence =>
      before.path.root.value ∈ before.levels.flatten → after.reference = before.reference)
      query.occurrences query.separateSiblings.occurrences := by
  have renamed := separateSiblings_renamed once
  have distinct := query.nodup_separateSiblings.mpr once
  rw [Siblings.QueryRenamed, List.forall₂_iff_zip] at renamed
  refine List.forall₂_iff_zip.mpr ⟨renamed.1, fun member => ?_⟩
  obtain ⟨first, second⟩ := List.of_mem_zip member
  exact (renamed.2 member).reference (levels_sublist_of_mem first).subset
    (distinct.sublist (levels_sublist_of_mem second))

end Query

/-- Binding a query that declares each alias once, among those that are visible where it does, never
fails because an alias is in use. It changes nothing but aliases, none of them at the outermost
level: they are different in the model, and all paths start at the ranges that they started at.
Other queries are not bound. -/
theorem Model.bind_separates (schema : Schema) (query : Query) (parameters : ParameterMap) :
    (query.DeclaresOnce →
      (∀ name span, Model.bind schema query parameters ≠ .error (.aliasCollision name span)) ∧
      ∀ bound, Model.bind schema query parameters = .ok bound →
        bound.aliases.Nodup ∧ bound.query.aliases = query.aliases ∧
          bound.query.shape = query.shape ∧
          List.Forall₂ (fun before after : Occurrence =>
            before.path.root.value ∈ before.levels.flatten → after.reference = before.reference)
            query.occurrences bound.query.occurrences) ∧
    (¬ query.DeclaresOnce → ∃ error, Model.bind schema query parameters = .error error) := by
  refine ⟨fun once => ⟨fun name span collides => ?_, fun bound result => ?_⟩, fun repeats => ?_⟩
  · have repeated := Model.ofTree_collides collides
    exact repeated (query.nodup_separateSiblings.mpr once)
  · obtain ⟨same, _, _, _⟩ := Model.bind_ranges result
    rw [same]
    exact ⟨Model.ofTree_nodup result, query.aliases_separateSiblings, query.shape_separateSiblings,
      Query.separateSiblings_refers once⟩
  · cases result : Model.bind schema query parameters with
    | error error => exact ⟨error, rfl⟩
    | ok bound =>
      have distinct := Model.ofTree_nodup result
      rw [Model.ofTree_aliases result] at distinct
      exact absurd (query.nodup_separateSiblings.mp distinct) repeats

/-- Two pairs of queries side by side use the same aliases, and a query declares the alias of the one
around it. -/
theorem Model.bind_separates_shop :
    ∃ query bound repeating,
      Query.parse "select c from Customer c where exists (select o from Order o where o.customer = c and exists (select p from Order p where p.total > o.total)) and exists (select o from Order o where o.customer = c and exists (select p from Order p where p.total < o.total))"
        2 = .ok query ∧
      query.DeclaresOnce ∧ Model.bind .shop query .empty = .ok bound ∧
      bound.query.text = "select c from Customer c where exists (select o from Order o where o.customer = c and exists (select p from Order p where p.total > o.total)) and exists (select o1 from Order o1 where o1.customer = c and exists (select p1 from Order p1 where p1.total < o1.total))" ∧
      bound.aliases.Nodup ∧ bound.query.aliases = query.aliases ∧
      bound.query.shape = query.shape ∧
      List.Forall₂ (fun before after : Occurrence =>
        before.path.root.value ∈ before.levels.flatten → after.reference = before.reference)
        query.occurrences bound.query.occurrences ∧
      Query.parse "select c from Customer c where exists (select c from Order c)" 1 =
        .ok repeating ∧
      ¬ repeating.DeclaresOnce ∧
      ∃ error, Model.bind .shop repeating .empty = .error error := by
  have runs : ((Query.parse "select c from Customer c where exists (select o from Order o where o.customer = c and exists (select p from Order p where p.total > o.total)) and exists (select o from Order o where o.customer = c and exists (select p from Order p where p.total < o.total))"
      2).toOption.bind fun query => (Model.bind .shop query .empty).toOption.map fun bound =>
        (decide query.DeclaresOnce, bound.query.text)) =
      some (true, "select c from Customer c where exists (select o from Order o where o.customer = c and exists (select p from Order p where p.total > o.total)) and exists (select o1 from Order o1 where o1.customer = c and exists (select p1 from Order p1 where p1.total < o1.total))") := by
    decide +kernel
  have fails : ((Query.parse "select c from Customer c where exists (select c from Order c)"
      1).toOption.map fun query => decide query.DeclaresOnce) = some false := by
    decide +kernel
  obtain ⟨query, parsed, runs⟩ := Option.bind_eq_some_iff.mp runs
  obtain ⟨bound, bind, result⟩ := Option.map_eq_some_iff.mp runs
  obtain ⟨once, text⟩ := Prod.mk.inj result
  obtain ⟨repeating, read, repeats⟩ := Option.map_eq_some_iff.mp fails
  have once := of_decide_eq_true once
  have repeats := of_decide_eq_false repeats
  obtain ⟨distinct, aliases, shape, references⟩ :=
    ((Model.bind_separates .shop query .empty).1 once).2 bound (ok_of_toOption bind)
  exact ⟨query, bound, repeating, ok_of_toOption parsed, once, ok_of_toOption bind, text, distinct,
    aliases, shape, references, ok_of_toOption read, repeats,
    (Model.bind_separates .shop repeating .empty).2 repeats⟩

end QueryGuard
