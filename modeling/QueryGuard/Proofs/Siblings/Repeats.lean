import QueryGuard.Proofs.Siblings.Keeping
import QueryGuard.Proofs.Siblings.References
/-!
Which aliases change when queries side by side are told apart: those that have occurred before, and
no others.
-/

set_option autoImplicit false

namespace QueryGuard

/-- Each name is kept if it has not occurred before; otherwise it becomes one that is not declared. -/
inductive Repeats (declared : List String) : List String → List String → List String → Prop where
  | nil {seen : List String} : Repeats declared seen [] []
  | kept {seen names used : List String} {name : String} (new : name ∉ seen)
      (further : Repeats declared (name :: seen) names used) :
      Repeats declared seen (name :: names) (name :: used)
  | renamed {seen names used : List String} {name fresh : String} (again : name ∈ seen)
      (undeclared : fresh ∉ declared) (further : Repeats declared (name :: seen) names used) :
      Repeats declared seen (name :: names) (fresh :: used)

namespace Repeats

variable {declared seen names used : List String}

theorem congr {others : List String} (repeats : Repeats declared seen names used)
    (same : ∀ name ∈ names, name ∈ seen ↔ name ∈ others) :
    Repeats declared others names used := by
  have extend : ∀ {name : String} {rest seen others : List String},
      (∀ other ∈ name :: rest, other ∈ seen ↔ other ∈ others) →
      ∀ other ∈ rest, other ∈ name :: seen ↔ other ∈ name :: others := by
    intro name rest seen others same other member
    rw [List.mem_cons, List.mem_cons, same other (List.mem_cons_of_mem _ member)]
  induction repeats generalizing others with
  | nil => exact .nil
  | kept new _ ih =>
    exact .kept (fun member => new ((same _ List.mem_cons_self).mpr member)) (ih (extend same))
  | renamed again undeclared _ ih =>
    exact .renamed ((same _ List.mem_cons_self).mp again) undeclared (ih (extend same))

theorem append {rest used' : List String} (first : Repeats declared seen names used)
    (second : Repeats declared (names ++ seen) rest used') :
    Repeats declared seen (names ++ rest) (used ++ used') := by
  have moved : ∀ {name : String} {names seen : List String},
      ∀ other ∈ rest, other ∈ name :: names ++ seen ↔ other ∈ names ++ name :: seen := by
    intro name names seen other _
    simp only [List.cons_append, List.mem_cons, List.mem_append]
    tauto
  induction first with
  | nil => exact second
  | kept new _ ih => exact .kept new (ih (second.congr moved))
  | renamed again undeclared _ ih => exact .renamed again undeclared (ih (second.congr moved))

/-- The names that are declared and have occurred are the same afterwards. -/
theorem occurred (repeats : Repeats declared seen names used) {name : String}
    (member : name ∈ declared) :
    name ∈ used ∨ name ∈ seen ↔ name ∈ names ∨ name ∈ seen := by
  induction repeats with
  | nil => exact Iff.rfl
  | kept _ _ ih =>
    simp only [List.mem_cons] at ih ⊢
    tauto
  | @renamed _ _ _ other fresh again undeclared _ ih =>
    have differs : name ≠ fresh := fun same => undeclared (same ▸ member)
    have occurs : name = other → name ∈ _ := fun same => same ▸ again
    simp only [List.mem_cons] at ih ⊢
    tauto

/-- A name is kept at a place exactly if it has not occurred before. -/
theorem place_iff (repeats : Repeats declared seen names used) (among : names ⊆ declared)
    {place : Nat} {name : String} (written : names[place]? = some name) :
    used[place]? = some name ↔ name ∉ seen ∧ name ∉ names.take place := by
  induction repeats generalizing place with
  | nil => simp at written
  | @kept seen names used other new _ ih =>
    cases place with
    | zero =>
      obtain rfl := Option.some.inj written
      simpa using new
    | succ place =>
      rw [List.getElem?_cons_succ, List.take_succ_cons, ih (List.cons_subset.mp among).2 written]
      simp only [List.mem_cons]
      tauto
  | @renamed seen names used other fresh again undeclared _ ih =>
    cases place with
    | zero =>
      obtain rfl := Option.some.inj written
      have differs : fresh ≠ other := by
        rintro rfl
        exact undeclared (among List.mem_cons_self)
      simp [again, differs]
    | succ place =>
      rw [List.getElem?_cons_succ, List.take_succ_cons, ih (List.cons_subset.mp among).2 written]
      simp only [List.mem_cons]
      tauto

/-- Names that are different and new are all kept. -/
theorem eq_of_newTo (repeats : Repeats declared seen names used) (new : NewTo seen names) :
    used = names := by
  induction repeats with
  | nil => rfl
  | kept _ _ ih => rw [ih (NewTo.cons.mp new).2]
  | renamed again => exact absurd again (NewTo.cons.mp new).1

end Repeats

/-! ### What a query is apart from -/

theorem Query.mem_scopes {query : Query} {name : String} (member : name ∈ query.allAliases) :
    ∃ scope ∈ query.scopes, name ∈ scope := by
  induction size : query.nesting using Nat.strongRecOn generalizing query with
  | ind size ih =>
    rw [allAliases_eq_subqueries, List.mem_append, List.mem_flatMap] at member
    rw [scopes_eq]
    rcases member with own | ⟨inner, among, found⟩
    · exact ⟨_, List.mem_cons_self, own⟩
    · obtain ⟨scope, listed, declared⟩ := ih inner.nesting (size ▸ nesting_lt among) found rfl
      refine ⟨_, List.mem_cons_of_mem _ (List.mem_map_of_mem
        (List.mem_flatMap.mpr ⟨inner, among, listed⟩)), List.mem_append_right _ declared⟩

theorem Query.ApartFrom.not_mem {outside : List String} {query : Query}
    (apart : query.ApartFrom outside) : ∀ name ∈ query.allAliases, name ∉ outside := by
  intro name member
  obtain ⟨scope, listed, declared⟩ := mem_scopes member
  exact (apart scope listed).2 name declared

namespace Siblings

/-- Of the declared names, those in use by queries that have been left are the ones given. -/
def Closes (declared seen : List String) (state : State) : Prop :=
  ∀ name ∈ declared, name ∈ state.closed ↔ name ∈ seen

theorem chooseAll_repeats {declared seen names : List String} {visible chosen : List Chosen}
    {before after : State} (sound : Sound declared visible before) (among : names ⊆ declared)
    (new : NewTo (visible.map (·.1)) names)
    (closes : ∀ name ∈ names, name ∈ before.closed ↔ name ∈ seen)
    (run : (chooseAll visible names).run before = (chosen, after)) :
    Repeats declared seen names (chosen.map (·.2)) := by
  induction names generalizing visible chosen before seen with
  | nil =>
    obtain ⟨rfl, rfl⟩ := Prod.mk.inj run
    exact .nil
  | cons name rest ih =>
    obtain ⟨here, further⟩ := List.cons_subset.mp among
    obtain ⟨unseen, others⟩ := NewTo.cons.mp new
    cases first : (choose visible name).run before with
    | mk used between =>
      cases next : (chooseAll ((name, used) :: visible) rest).run between with
      | mk following reached =>
        rw [chooseAll, run_bind first, run_bind next] at run
        obtain ⟨rfl, rfl⟩ := Prod.mk.inj run
        have picked := choose_picked first
        obtain ⟨extended, closed, _⟩ := sound.picked here picked
        have remains : ∀ other ∈ rest, other ∈ between.closed ↔ other ∈ name :: seen := by
          intro other member
          have differs : other ≠ name := by
            rintro rfl
            exact others.2 other member List.mem_cons_self
          rw [closed, closes other (List.mem_cons_of_mem _ member), List.mem_cons]
          tauto
        have repeats := ih extended further others remains next
        have occurred := closes name List.mem_cons_self
        cases picked with
        | seen seen => exact absurd (sound.seen here seen).1 unseen
        | free _ unused => exact .kept (fun member => unused (occurred.mpr member)) repeats
        | fresh _ again untaken =>
          exact .renamed (occurred.mp again) (fun member => untaken (sound.tree member)) repeats

/-- What is known of a query when its siblings have been told apart. -/
structure Tracked (declared seen : List String) (visible : List Chosen) (query result : Query)
    (after : State) : Prop where
  sound : Sound declared visible after
  repeats : Repeats declared seen query.allAliases result.allAliases
  closes : Closes declared (query.allAliases ++ seen) after

/-- Taking a step for several queries, one after the other, tracks them all. -/
theorem tracked_mapM {declared seen : List String} {visible : List Chosen}
    {step : Query → StateM State Query} {queries results : List Query} {before after : State}
    (each : ∀ query ∈ queries, ∀ seen before result after, Sound declared visible before →
      Closes declared seen before → (step query).run before = (result, after) →
      Tracked declared seen visible query result after)
    (sound : Sound declared visible before) (closes : Closes declared seen before)
    (run : (queries.mapM step).run before = (results, after)) :
    Sound declared visible after ∧
      Repeats declared seen (queries.flatMap Query.allAliases)
        (results.flatMap Query.allAliases) ∧
      Closes declared (queries.flatMap Query.allAliases ++ seen) after := by
  induction queries generalizing results before seen with
  | nil =>
    rw [List.mapM_nil] at run
    obtain ⟨rfl, rfl⟩ := Prod.mk.inj run
    exact ⟨sound, .nil, closes⟩
  | cons first rest ih =>
    cases here : (step first).run before with
    | mk result between =>
      cases further : (rest.mapM step).run between with
      | mk others reached =>
        rw [List.mapM_cons, run_bind here, run_bind further] at run
        obtain ⟨rfl, rfl⟩ := Prod.mk.inj run
        have tracked := each first List.mem_cons_self seen before result between sound closes here
        obtain ⟨sound, repeats, closes⟩ := ih
          (fun query member => each query (List.mem_cons_of_mem _ member)) tracked.sound
          tracked.closes further
        refine ⟨sound, tracked.repeats.append repeats, fun name member => ?_⟩
        rw [closes name member, List.flatMap_cons]
        simp only [List.mem_append]
        tauto

theorem level_tracked {declared seen : List String}
    {nested : List Chosen → Query → StateM State Query} {visible : List Chosen}
    {query result : Query} {before after : State} (among : query.allAliases ⊆ declared)
    (apart : query.ApartFrom (visible.map (·.1))) (sound : Sound declared visible before)
    (closes : Closes declared seen before)
    (inside : ∀ inner : Query, inner.nesting < query.nesting → inner.allAliases ⊆ declared →
      ∀ visible : List Chosen, inner.ApartFrom (visible.map (·.1)) →
        ∀ seen before result after, Sound declared visible before → Closes declared seen before →
          (nested visible inner).run before = (result, after) →
          Tracked declared seen visible inner result after)
    (run : (level nested visible query).run before = (result, after)) :
    Tracked declared seen visible query result after := by
  obtain ⟨chosen, between, reached, choice, replaced, rfl⟩ := of_level_run run
  have own : query.aliases.map (·.value) ⊆ declared := List.Subset.trans query.aliases_subset among
  obtain ⟨written, closed, extended, _⟩ := sound.chosen own choice
  obtain ⟨new, others⟩ := (query.apartFrom_rename (changes chosen)).mp apart
  have repeats := chooseAll_repeats sound own new (fun name member => closes name (own member))
    choice
  obtain ⟨aliases, taken⟩ := mapSubqueries_run replaced
  have each : ∀ inner ∈ (query.rename (changes chosen)).subqueries,
      ∀ seen before result after, Sound declared (chosen ++ visible) before →
        Closes declared seen before →
        (nested (chosen ++ visible) inner).run before = (result, after) →
        Tracked declared seen (chosen ++ visible) inner result after := by
    intro inner member
    obtain ⟨smaller, aliases⟩ := Query.smaller_of_rename member
    have further := others inner member
    rw [← written, ← List.map_append] at further
    exact inside inner smaller (List.Subset.trans aliases among) (chosen ++ visible) further
  have remains : Closes declared seen between := fun name member => closed ▸ closes name member
  obtain ⟨reaches, inner, left⟩ := tracked_mapM each extended remains taken
  -- the queries inside declare none of the aliases of the level
  have beyond : Repeats declared (query.aliases.map (·.value) ++ seen)
      ((query.rename (changes chosen)).subqueries.flatMap Query.allAliases)
      (result.subqueries.flatMap Query.allAliases) := by
    refine inner.congr fun name member => ?_
    obtain ⟨source, listed, declares⟩ := List.mem_flatMap.mp member
    have outside := (others source listed).not_mem name declares
    rw [List.mem_append, not_or] at outside
    rw [List.mem_append]
    tauto
  have same : (query.rename (changes chosen)).subqueries.flatMap Query.allAliases =
      query.subqueries.flatMap Query.allAliases := by
    rw [Query.subqueries_rename, List.flatMap_map]
    exact List.flatMap_congr fun inner _ =>
      Query.allAliases_rename_inside fun condition _ names => condition.allAliases_rename names
  have level : result.aliases.map (·.value) = chosen.map (·.2) :=
    aliases_chosen written aliases (written ▸ new.1)
  rw [same] at beyond left
  refine ⟨reaches.leave, ?_, fun name member => ?_⟩
  · rw [query.allAliases_eq_subqueries, result.allAliases_eq_subqueries, level]
    exact repeats.append beyond
  · have occurred := repeats.occurred member
    have inside := left name member
    rw [query.allAliases_eq_subqueries]
    simp only [List.mem_append] at inside ⊢
    rw [inside, or_left_comm, occurred, or_left_comm, or_assoc]

theorem levels_tracked {declared : List String} (depth : Nat) {query : Query}
    (within : query.nesting ≤ depth) (among : query.allAliases ⊆ declared) (visible : List Chosen)
    (apart : query.ApartFrom (visible.map (·.1))) (seen : List String) (before : State)
    (result : Query) (after : State) (sound : Sound declared visible before)
    (closes : Closes declared seen before)
    (run : (levels depth visible query).run before = (result, after)) :
    Tracked declared seen visible query result after := by
  induction depth generalizing query visible seen before result after with
  | zero =>
    refine level_tracked among apart sound closes (fun inner smaller => ?_) run
    omega
  | succ depth ih =>
    refine level_tracked among apart sound closes (fun inner smaller among visible apart => ?_) run
    exact ih (by omega) among visible apart

end Siblings

namespace Query

/-- Of a query that declares each alias once where it is visible, those aliases change that have
occurred before. -/
theorem separateSiblings_repeats {query : Query} (once : query.DeclaresOnce) :
    Repeats query.allAliases [] query.allAliases query.separateSiblings.allAliases :=
  (Siblings.levels_tracked query.nesting (Nat.le_refl _) (List.Subset.refl _) []
    (query.apartFrom_nil.mpr once) [] ⟨query.allAliases, []⟩ _ _ query.separateSiblings_sound
    (fun _ _ => Iff.rfl) rfl).repeats

theorem scope_sublist {query : Query} {scope : List String} (member : scope ∈ query.scopes) :
    scope.Sublist query.allAliases := by
  induction size : query.nesting using Nat.strongRecOn generalizing query scope with
  | ind size ih =>
    rw [allAliases_eq_subqueries]
    rw [scopes_eq] at member
    rcases List.mem_cons.mp member with rfl | member
    · exact List.sublist_append_left _ _
    · obtain ⟨inner, listed, rfl⟩ := List.mem_map.mp member
      obtain ⟨source, among, listed⟩ := List.mem_flatMap.mp listed
      refine ((ih source.nesting (size ▸ nesting_lt among) listed rfl).trans ?_).append_left _
      rw [List.flatMap_def]
      exact List.sublist_flatten_of_mem (List.mem_map_of_mem among)

theorem declaresOnce_of_nodup {query : Query} (distinct : query.allAliases.Nodup) :
    query.DeclaresOnce :=
  fun _ member => distinct.sublist (scope_sublist member)

/-- A query whose aliases are different stays as it is. -/
theorem separateSiblings_eq_self {query : Query} (distinct : query.allAliases.Nodup) :
    query.separateSiblings = query :=
  query.separateSiblings_told.same
    ((separateSiblings_repeats (declaresOnce_of_nodup distinct)).eq_of_newTo
      (NewTo.nothing_outside.mpr distinct))

end Query

end QueryGuard
