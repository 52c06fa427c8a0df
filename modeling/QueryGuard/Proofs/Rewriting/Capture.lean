import QueryGuard.Proofs.Rewriting.Coverage
import QueryGuard.Proofs.Rewriting.Occurrences
/-!
What the paths of a condition refer to after the queries inside it got aliases of their own, and
exactly which of them refer to something else then.
-/

set_option autoImplicit false

namespace QueryGuard

/-! ### One path -/

namespace Occurrence

/-- All levels around the path got aliases that are new and different from each other, and the path
was renamed along with them. -/
structure Followed (names : List String) (before after : Occurrence) : Prop
    extends Along before after where
  distinct : after.levels.flatten.Nodup
  new : ∀ name ∈ after.levels.flatten, name ∉ names

/-- A query around the path takes it over: it declares the new alias of the range further outside
that the path starts at, or its own new alias is one that no query declared. -/
inductive Captured (before after : Occurrence) : Prop where
  | hidden {level place : Nat} {now : String} (reference : before.reference = .range level place)
      (renamed : aliasAt after.levels level place = some now)
      (between : now ∈ (before.levels.drop (level + 1)).flatten) : Captured before after
  | adopted {name : String} (reference : before.reference = .free name)
      (declared : name ∈ after.levels.flatten) : Captured before after

/-- The path of the copy has the same attributes, as many ranges around it, and refers to the copy
of the range that it referred to, unless a query takes it over. Paths that start at one of the names
are never taken over. -/
structure Refers (names : List String) (before after : Occurrence) : Prop where
  attributes : after.path.attributes = before.path.attributes
  shape : SameShape before.levels after.levels
  exact : after.reference = before.reference ↔ ¬ Captured before after
  outer : ∀ name ∈ names, before.reference = .free name → after.reference = .free name

namespace Followed

variable {names : List String} {before after : Occurrence}

theorem bare (path : Path) : Followed names (bare path) (bare path) :=
  ⟨.bare path, List.nodup_nil, by simp [Occurrence.bare]⟩

/-- A path that starts at something which no query declares keeps its alias. -/
theorem root_free (followed : Followed names before after) {name : String}
    (reference : before.reference = .free name) : after.path.root.value = name := by
  obtain ⟨same, absent⟩ := Reference.of_eq_free reference
  rw [followed.root, follow_free followed.shape absent, same]

theorem exact_range (followed : Followed names before after) {level place : Nat}
    (reference : before.reference = .range level place) :
    after.reference = before.reference ↔ ¬ Captured before after := by
  obtain ⟨now, renamed, keeps, captured⟩ :=
    follow_range followed.shape followed.distinct reference
  rw [reference, Occurrence.reference, followed.root]
  by_cases between : now ∈ (before.levels.drop (level + 1)).flatten
  · obtain ⟨further, place', deeper, nearest⟩ := captured between
    have other : further ≠ level := by omega
    rw [nearest, Reference.range.injEq]
    exact ⟨fun same => absurd same.1 other,
      fun free => absurd (.hidden reference renamed between) free⟩
  · refine ⟨fun _ taken => ?_, fun _ => keeps between⟩
    cases taken with
    | hidden found placed hides =>
      obtain ⟨rfl, rfl⟩ := Reference.range.inj (reference.symm.trans found)
      obtain rfl := Option.some.inj (renamed.symm.trans placed)
      exact between hides
    | adopted found => cases reference.symm.trans found

theorem exact_free (followed : Followed names before after) {name : String}
    (reference : before.reference = .free name) :
    after.reference = before.reference ↔ ¬ Captured before after := by
  rw [reference, Occurrence.reference, followed.root_free reference]
  by_cases declared : name ∈ after.levels.flatten
  · obtain ⟨level, place, _, range⟩ := Reference.of_range (n := 0) declared
    rw [range]
    refine ⟨fun same => ?_, fun free => absurd (.adopted reference declared) free⟩
    cases same
  · rw [Reference.of_free declared]
    refine ⟨fun _ taken => ?_, fun _ => rfl⟩
    cases taken with
    | hidden found => cases reference.symm.trans found
    | adopted found declares =>
      obtain rfl := Reference.free.inj (reference.symm.trans found)
      exact declared declares

theorem refers (followed : Followed names before after) : Refers names before after := by
  refine ⟨followed.attributes, followed.shape, ?_, fun name member reference => ?_⟩
  · cases reference : before.reference with
    | range level place => exact reference ▸ followed.exact_range reference
    | free name => exact reference ▸ followed.exact_free reference
  · have absent : name ∉ after.levels.flatten := fun declared =>
      followed.new name declared member
    rw [Occurrence.reference, followed.root_free reference]
    exact Reference.of_free absent

/-- One more level around the path gets other aliases. -/
theorem inside {level now : List String} {changes : Renaming}
    (followed : Followed (now ++ names) (before.rename changes) after)
    (length : level.length = now.length) (distinct : now.Nodup) (new : ∀ name ∈ now, name ∉ names)
    (renames : ∀ name, changes.apply name = Renaming.apply (level.zip now) name) :
    Followed names (before.inside level) (after.inside now) := by
  have apart : ∀ name ∈ after.levels.flatten, name ∉ now ∧ name ∉ names := by
    intro name declared
    have fresh := followed.new name declared
    rwa [List.mem_append, not_or] at fresh
  refine ⟨followed.toAlong.inside length renames, ?_, fun name declared => ?_⟩
  · change (now :: after.levels).flatten.Nodup
    rw [List.flatten_cons, List.nodup_append]
    refine ⟨distinct, followed.distinct, fun name declared other inner => ?_⟩
    rintro rfl
    exact (apart name inner).1 declared
  · change name ∈ (now :: after.levels).flatten at declared
    rw [List.flatten_cons, List.mem_append] at declared
    exact declared.elim (new name) fun inner => (apart name inner).2

end Followed

end Occurrence

/-! ### Copies -/

namespace Constraint

/-- The names are in use. -/
def Progress.Uses (names : List String) (progress : Progress) : Prop := names ⊆ progress.taken

/-- All paths of the second query follow those of the first one. -/
def QueryFollowed (names : List String) (query result : Query) : Prop :=
  List.Forall₂ (Occurrence.Followed names) query.occurrences result.occurrences

/-- A level whose aliases are different gets new ones that are. -/
structure Chosen (names level now : List String) (changes : Renaming) : Prop where
  length : level.length = now.length
  distinct : now.Nodup
  new : ∀ name ∈ now, name ∉ names
  renames : ∀ name, changes.apply name = Renaming.apply (level.zip now) name
  level : level.map changes.apply = now

theorem chosen_chosenFor {names : List String} {before : Progress} (uses : before.Uses names)
    {query : Query} (distinct : (query.aliases.map (·.value)).Nodup) :
    Chosen names (query.aliases.map (·.value)) ((chosenFor before query).map (·.2))
      (Siblings.changes (chosenFor before query)) := by
  have written : (chosenFor before query).map (·.1) = query.aliases.map (·.value) :=
    written_chooseAliases _ _ _
  have length : (query.aliases.map (·.value)).length =
      ((chosenFor before query).map (·.2)).length := by
    rw [← written, List.length_map, List.length_map]
  have renames : ∀ name, (Siblings.changes (chosenFor before query)).apply name =
      Renaming.apply ((query.aliases.map (·.value)).zip ((chosenFor before query).map (·.2)))
        name := by
    intro name
    rw [apply_changes (written ▸ distinct)]
    exact congrArg (Renaming.apply · name) (zip_used _ _ _).symm
  refine ⟨length, nodup_chooseAliases distinct (List.Subset.refl _), ?_, renames, ?_⟩
  · exact fun name used declared => (of_mem_used used).1 (uses declared)
  · rw [funext renames]
    exact Renaming.map_apply_zip length distinct

/-- A query follows if it is renamed with new aliases and the queries inside it follow then. -/
theorem queryFollowed_level {names now : List String} {changes : Renaming} {query result : Query}
    (chosen : Chosen names (query.aliases.map (·.value)) now changes)
    (replaced : (query.rename changes).Replaced (QueryFollowed (now ++ names)) result) :
    QueryFollowed names query result :=
  Query.occurrences_level Occurrence.Followed.bare chosen.level (fun _ _ followed =>
    followed.inside chosen.length chosen.distinct chosen.new chosen.renames) replaced

theorem freshenLevel_follows {names : List String} {nested : Query → Constrain Query}
    {criterion : String} {query : Query} (distinct : query.allAliases.Nodup)
    (inside : ∀ inner : Query, inner.allAliases.Nodup → inner.nesting < query.nesting →
      ∀ names, (keeping (Progress.Uses names)).of (nested inner) (QueryFollowed names inner)) :
    (keeping (Progress.Uses names)).of (freshenLevel nested criterion query)
      (QueryFollowed names query) := by
  intro before result after run uses
  rw [freshenLevel_run] at run
  have aliases : (query.aliases.map (·.value)).Nodup := by
    rw [Query.allAliases_eq] at distinct
    exact (List.nodup_append.mp distinct).1
  have chosen := chosen_chosenFor uses aliases
  generalize used : (chosenFor before query).map (·.2) = now at chosen
  have each : ∀ inner ∈ (query.rename (Siblings.changes (chosenFor before query))).subqueries,
      (keeping (Progress.Uses (now ++ names))).of (nested inner)
        (QueryFollowed (now ++ names) inner) := by
    intro inner member
    obtain ⟨written, among, renamed, declared⟩ := Query.mem_subqueries_rename member
    have nodup := distinct.sublist (Query.allAliases_sublist among)
    have smaller := Query.nesting_lt member
    rw [Query.nesting_rename] at smaller
    exact inside inner (declared ▸ nodup) smaller _
  have ensures := Query.mapSubqueries_ensures (keeping (Progress.Uses (now ++ names))) _ each
  have declares : (before.declare criterion (chosenFor before query)).Uses (now ++ names) := by
    intro name member
    rw [← used] at member
    rcases List.mem_append.mp member with new | old
    · exact List.mem_append_left _ new
    · exact List.mem_append_right _ (uses old)
  obtain ⟨replaced, kept⟩ := ensures _ result after run declares
  exact ⟨queryFollowed_level chosen replaced, fun name member =>
    kept (List.mem_append_right _ member)⟩

/-- Giving a query and the ones inside it other aliases renames all paths along. -/
theorem freshen_follows (criterion : String) (depth : Nat) (query : Query)
    (within : query.nesting ≤ depth) (distinct : query.allAliases.Nodup) (names : List String) :
    (keeping (Progress.Uses names)).of (freshen criterion depth query)
      (QueryFollowed names query) := by
  induction depth generalizing query names with
  | zero =>
    apply freshenLevel_follows distinct
    intro inner _ smaller
    omega
  | succ depth ih =>
    apply freshenLevel_follows distinct
    intro inner nodup smaller names
    exact ih inner (by omega) nodup names

/-- If the condition declares each alias once, the paths of the copy refer to what they referred to,
but for those that are taken over. -/
def CopyRefers (names : List String) (_criterion : String) (predicate copy : Predicate) : Prop :=
  predicate.allAliases.Nodup →
    List.Forall₂ (Occurrence.Refers names) predicate.occurrences copy.occurrences

theorem copies_refer (names : List String) (criterion : String) (predicate : Predicate) :
    (keeping (Progress.Spares names)).of
      (predicate.mapSubqueries fun query => freshen criterion query.nesting query)
      (CopyRefers names criterion predicate) := by
  intro before copy after run spares
  have keeps := predicate.mapSubqueries_ensures (keeping (Progress.Spares names))
    fun query _ => freshen_keeps criterion query.nesting query
  refine ⟨fun distinct => ?_, (keeps before copy after run spares).2⟩
  have ensures := predicate.mapSubqueries_ensures (keeping (Progress.Uses names))
    fun query member => freshen_follows criterion query.nesting query (Nat.le_refl _)
      (distinct.sublist (Predicate.allAliases_sublist member)) names
  obtain ⟨replaced, _⟩ := ensures before copy after run spares.taken
  have followed := replaced.occurrences Occurrence.Followed.bare fun _ _ followed => followed
  exact followed.imp fun before after holds => holds.refers

end Constraint

namespace Model

variable {schema catalog : Schema} {query : Query} {parameters : ParameterMap}
  {registry : Registry} {scope : Scope} {security : SecurityContext} {bound model : Model}

/-- In all copies of contributed conditions that a constrained model has, each path refers to the
copy of the range that it referred to, and to the same range of the caller if it referred to one of
these, exactly if no query around it takes it over. -/
theorem constrain_refers (bind : Model.bind schema query parameters = .ok bound)
    (constrain : bound.constrain catalog registry scope security = .ok model) :
    Constraint.Constrained ⟨catalog, registry.criteria, scope, security, bound⟩
      (Constraint.CopyRefers bound.aliases) bound.query model.query :=
  constrained_of_copies bind constrain (Constraint.copies_refer bound.aliases)

end Model

/-- A criterion for the customer that goes by one alias: an order of theirs is not the largest. -/
def Criterion.outdone : Criterion where
  name := "outdone"
  appliesTo := fun entity => entity.name == "Customer"
  contribute := fun context =>
    if context.name ≠ "e" then return none
    else
      match Query.parse "select x from Customer x where exists (select m from Order m where m.customer = e and exists (select m1 from Order m1 where m1.total > m.total))" 2 with
      | .ok query => return query.filter.map fun predicate => ⟨predicate, []⟩
      | .error error => throw (.syntactic error)

/-- The alias m is the caller's, so the outer query of the condition goes by m1 instead, which the
inner query declares: it takes over the path of the outer one, and compares an order with itself. -/
theorem Model.constrain_refers_outdone :
    ∃ query bound model,
      Query.parse "select e from Customer e join Customer m on m.name = e.name" 1 = .ok query ∧
      Model.bind .shop query .empty = .ok bound ∧
      bound.constrain .shop ⟨[Criterion.outdone], List.pairwise_singleton _ _⟩ .standard
        .anonymous = .ok model ∧
      model.query.text = "select e from Customer e join Customer m on m.name = e.name where exists (select m1 from Order m1 where m1.customer = e and exists (select m2 from Order m2 where m2.total > m2.total))" ∧
      Constraint.Constrained ⟨.shop, [Criterion.outdone], .standard, .anonymous, bound⟩
        (Constraint.CopyRefers bound.aliases) bound.query model.query := by
  have runs : ((Query.parse "select e from Customer e join Customer m on m.name = e.name"
      1).toOption.bind fun query => (Model.bind .shop query .empty).toOption.bind fun bound =>
        (bound.constrain .shop ⟨[Criterion.outdone], List.pairwise_singleton _ _⟩ .standard
          .anonymous).toOption.map (·.query.text)) =
      some "select e from Customer e join Customer m on m.name = e.name where exists (select m1 from Order m1 where m1.customer = e and exists (select m2 from Order m2 where m2.total > m2.total))" := by
    decide +kernel
  obtain ⟨query, parsed, runs⟩ := Option.bind_eq_some_iff.mp runs
  obtain ⟨bound, bind, runs⟩ := Option.bind_eq_some_iff.mp runs
  obtain ⟨model, constrain, text⟩ := Option.map_eq_some_iff.mp runs
  exact ⟨query, bound, model, ok_of_toOption parsed, ok_of_toOption bind,
    ok_of_toOption constrain, text,
    Model.constrain_refers (ok_of_toOption bind) (ok_of_toOption constrain)⟩

end QueryGuard
