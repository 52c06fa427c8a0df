import QueryGuard.Model.Siblings
import QueryGuard.Proofs.Rewriting.Aliases
import QueryGuard.Proofs.Rewriting.Renaming
/-!
Which aliases the queries of a tree see, and the aliases that are chosen for a level. They are different from
all that are in use exactly if the level declares no alias twice and none that a query around it declares.
-/

set_option autoImplicit false

namespace QueryGuard

/-- The walk that lists scopes. -/
def scopeWalk : PredicateFold (List (List String)) (List (List String)) where
  and := List.flatten
  or := List.flatten
  not := id
  group := id
  test := fun _ => []
  inQuery := fun _ query _ => query
  existsIn := fun query _ => query
  query := fun query =>
    let level := query.aliases.map (·.value)
    level :: query.conditions.flatten.map (level ++ ·)

/-- The scopes of the queries inside a condition. -/
def Predicate.scopes : Predicate → List (List String) := Predicate.fold scopeWalk

namespace Query

/-- For the query and each one inside it the aliases that it declares, behind those of the queries
around it. -/
def scopes : Query → List (List String) := Query.fold scopeWalk

/-- No query declares an alias twice, or one that a query around it declares. -/
def DeclaresOnce (query : Query) : Prop := ∀ scope ∈ query.scopes, scope.Nodup

instance (query : Query) : Decidable query.DeclaresOnce :=
  inferInstanceAs (Decidable (∀ scope ∈ query.scopes, scope.Nodup))

end Query

/-! ### Equations -/

namespace Predicate

theorem scopes_eq (predicate : Predicate) :
    predicate.scopes = predicate.subqueries.flatMap Query.scopes :=
  fold_listing ⟨rfl, rfl, rfl, rfl, rfl, rfl, rfl⟩ predicate

end Predicate

namespace Query

theorem scopes_eq (query : Query) :
    query.scopes = query.aliases.map (·.value) ::
      (query.subqueries.flatMap scopes).map (query.aliases.map (·.value) ++ ·) := by
  have aliases : (query.map (Predicate.fold scopeWalk)).aliases = query.aliases := by
    rw [Select.aliases, Select.map, List.map_map]
    rfl
  rw [scopes, Query.fold_eq]
  change (query.map _).aliases.map (·.value) :: (query.map _).conditions.flatten.map _ = _
  have conditions : query.conditions.map Predicate.scopes =
      query.conditions.map fun condition => condition.subqueries.flatMap scopes :=
    List.map_congr_left fun condition _ => condition.scopes_eq
  rw [aliases, Select.conditions_map, subqueries, List.flatMap_assoc, List.flatMap_def]
  exact congrArg (fun inner => _ :: (List.flatten inner).map _) conditions

theorem subqueries_rename (query : Query) (names : Renaming) :
    (query.rename names).subqueries =
      query.subqueries.map fun inner => inner.rename (names.inside inner) := by
  rw [subqueries, conditions_rename, subqueries, List.flatMap_map, List.map_flatMap]
  exact List.flatMap_congr fun condition _ => condition.subqueries_rename names

/-- A renaming from outside changes no scope of a query. -/
theorem scopes_rename_inside (query : Query) (names : Renaming) :
    (query.rename (names.inside query)).scopes = query.scopes := by
  induction size : query.nesting using Nat.strongRecOn generalizing query names with
  | ind size ih =>
    have inside : query.subqueries.map (fun inner =>
        (inner.rename ((names.inside query).inside inner)).scopes) = query.subqueries.map scopes :=
      List.map_congr_left fun inner member =>
        ih inner.nesting (size ▸ nesting_lt member) inner _ rfl
    rw [scopes_eq, scopes_eq, aliases_rename_inside, subqueries_rename, List.flatMap_map,
      List.flatMap_def, inside, ← List.flatMap_def]

end Query

/-! ### Names that are new -/

/-- The names are different from each other and from the ones outside. -/
def NewTo (outside names : List String) : Prop := names.Nodup ∧ ∀ name ∈ names, name ∉ outside

namespace NewTo

variable {outside names first rest : List String} {name : String}

theorem nil : NewTo outside [] := ⟨List.nodup_nil, fun _ member => nomatch member⟩

theorem nothing_outside : NewTo [] names ↔ names.Nodup :=
  ⟨And.left, fun distinct => ⟨distinct, fun _ _ => List.not_mem_nil⟩⟩

theorem congr {others : List String} (same : ∀ name, name ∈ outside ↔ name ∈ others) :
    NewTo outside names ↔ NewTo others names := by
  unfold NewTo
  simp only [same]

theorem append : NewTo outside (first ++ rest) ↔
    NewTo outside first ∧ NewTo (first ++ outside) rest := by
  unfold NewTo
  simp only [List.nodup_append, List.mem_append, not_or]
  grind

theorem cons : NewTo outside (name :: rest) ↔
    name ∉ outside ∧ NewTo (name :: outside) rest := by
  rw [← List.singleton_append, append]
  simp [NewTo]

end NewTo

/-- The query declares each alias once, and none of those outside. -/
def Query.ApartFrom (outside : List String) (query : Query) : Prop :=
  ∀ scope ∈ query.scopes, NewTo outside scope

theorem Query.apartFrom_nil (query : Query) : query.ApartFrom [] ↔ query.DeclaresOnce := by
  unfold ApartFrom DeclaresOnce
  simp only [NewTo.nothing_outside]

/-- A query is apart if its level is, and the queries inside it are apart from that as well. -/
theorem Query.apartFrom_iff {outside : List String} (query : Query) :
    query.ApartFrom outside ↔ NewTo outside (query.aliases.map (·.value)) ∧
      ∀ inner ∈ query.subqueries, inner.ApartFrom (query.aliases.map (·.value) ++ outside) := by
  unfold ApartFrom
  rw [scopes_eq]
  simp only [List.forall_mem_cons, List.forall_mem_map, List.mem_flatMap, NewTo.append]
  grind

/-- Renaming a level changes nothing of what the queries inside it have to be apart from. -/
theorem Query.apartFrom_rename {outside : List String} (query : Query) (names : Renaming) :
    query.ApartFrom outside ↔ NewTo outside (query.aliases.map (·.value)) ∧
      ∀ inner ∈ (query.rename names).subqueries,
        inner.ApartFrom (query.aliases.map (·.value) ++ outside) := by
  rw [apartFrom_iff, subqueries_rename, List.forall_mem_map]
  unfold ApartFrom
  simp only [scopes_rename_inside]

/-- A query inside a renamed one is smaller, and declares none but its aliases. -/
theorem Query.smaller_of_rename {query inner : Query} {names : Renaming}
    (member : inner ∈ (query.rename names).subqueries) :
    inner.nesting < query.nesting ∧ inner.allAliases ⊆ query.allAliases := by
  have smaller := nesting_lt member
  rw [nesting_rename] at smaller
  obtain ⟨source, listed, _, same⟩ := mem_subqueries_rename member
  exact ⟨smaller, same ▸ allAliases_subset listed⟩

/-! ### Choosing -/

namespace Siblings

/-- Two steps that cannot fail run one after the other. -/
theorem run_bind {α β : Type} {step : StateM State α} {next : α → StateM State β} {value : α}
    {before after : State} (run : step.run before = (value, after)) :
    (step >>= next).run before = (next value).run after := by
  rw [StateT.run_bind, run]
  rfl

/-- What is known while aliases are chosen: those of the tree, those of the levels around and those
of queries that have been left are taken, and an alias of a level around is kept unless a query that
has been left uses it. -/
structure Sound (declared : List String) (visible : List Chosen) (state : State) : Prop where
  tree : declared ⊆ state.taken
  used : visible.map (·.2) ⊆ state.taken
  closed : state.closed ⊆ state.taken
  kept : ∀ pair ∈ visible, pair.2 = pair.1 ∨ pair.2 ∉ declared ∧ pair.1 ∈ state.closed

theorem Sound.perm {declared : List String} {first second : List Chosen} {state : State}
    (sound : Sound declared first state) (same : first.Perm second) :
    Sound declared second state :=
  ⟨sound.tree, fun _ member => sound.used ((same.map _).mem_iff.mpr member), sound.closed,
    fun pair member => sound.kept pair (same.mem_iff.mpr member)⟩

/-- An alias of a level around is written or used like the name. -/
def Seen (visible : List Chosen) (name : String) : Prop :=
  ∃ pair ∈ visible, pair.1 = name ∨ pair.2 = name

/-- How an alias is chosen: it is kept if it is visible or if no query that has been left uses it,
and a new one is chosen otherwise. -/
inductive Picked (visible : List Chosen) (name : String) (before : State) :
    String → State → Prop where
  | seen (seen : Seen visible name) : Picked visible name before name before
  | free (unseen : ¬ Seen visible name) (unused : name ∉ before.closed) :
      Picked visible name before name before
  | fresh {new : String} (unseen : ¬ Seen visible name) (closed : name ∈ before.closed)
      (untaken : new ∉ before.taken) :
      Picked visible name before new { before with taken := new :: before.taken }

/-- An alias is chosen anew if it is not visible and a query that has been left uses it. -/
theorem choose_run (visible : List Chosen) (name : String) (before : State) :
    (choose visible name).run before =
      if !(visible.any fun pair => pair.1 == name || pair.2 == name) &&
          before.closed.contains name then
        (FreshAlias.choose before.taken name,
          { before with taken := FreshAlias.choose before.taken name :: before.taken })
      else (name, before) := by
  rw [choose, StateT.run_bind, StateT.run_get, pure_bind]
  split
  · rename_i fresh
    exact congrArg (fun step : StateM State String => step.run before) (if_pos fresh)
  · rename_i kept
    exact congrArg (fun step : StateM State String => step.run before) (if_neg kept)

theorem any_eq_true_iff_seen {visible : List Chosen} {name : String} :
    (visible.any fun pair => pair.1 == name || pair.2 == name) = true ↔ Seen visible name := by
  simp [Seen]

theorem choose_picked {visible : List Chosen} {name used : String} {before after : State}
    (run : (choose visible name).run before = (used, after)) :
    Picked visible name before used after := by
  rw [choose_run] at run
  by_cases seen : Seen visible name
  · rw [any_eq_true_iff_seen.mpr seen] at run
    obtain ⟨rfl, rfl⟩ := Prod.mk.inj run
    exact .seen seen
  · rw [Bool.eq_false_iff.mpr fun is => seen (any_eq_true_iff_seen.mp is), Bool.not_false, Bool.true_and] at run
    split at run
    · rename_i closed
      obtain ⟨rfl, rfl⟩ := Prod.mk.inj run
      exact .fresh seen (by simpa using closed) (FreshAlias.choose_not_mem _ _)
    · rename_i unused
      obtain ⟨rfl, rfl⟩ := Prod.mk.inj run
      exact .free seen (by simpa using unused)

section

variable {declared : List String} {visible : List Chosen} {name used : String}
  {before after : State}

theorem Sound.seen (sound : Sound declared visible before) (among : name ∈ declared)
    (seen : Seen visible name) :
    name ∈ visible.map (·.1) ∧ name ∈ visible.map (·.2) ++ before.closed := by
  obtain ⟨pair, member, same⟩ := seen
  rcases sound.kept pair member with kept | ⟨renamed, closed⟩
  · have here : pair.1 = name := same.elim id kept.symm.trans
    subst here
    exact ⟨List.mem_map_of_mem member,
      List.mem_append_left _ (List.mem_map.mpr ⟨pair, member, kept⟩)⟩
  · have here : pair.1 = name := same.resolve_right fun used => renamed (used ▸ among)
    subst here
    exact ⟨List.mem_map_of_mem member, List.mem_append_right _ closed⟩

/-- A chosen alias is new exactly if no level around declares the one that was written. -/
theorem Sound.picked (sound : Sound declared visible before) (among : name ∈ declared)
    (picked : Picked visible name before used after) :
    Sound declared ((name, used) :: visible) after ∧ after.closed = before.closed ∧
      (name ∉ visible.map (·.1) ↔ used ∉ visible.map (·.2) ++ before.closed) := by
  have untouched : Sound declared ((name, name) :: visible) before :=
    ⟨sound.tree, List.cons_subset.mpr ⟨sound.tree among, sound.used⟩, sound.closed,
      List.forall_mem_cons.mpr ⟨.inl rfl, sound.kept⟩⟩
  have written : ∀ name, ¬ Seen visible name → name ∉ visible.map (·.1) ∧ name ∉ visible.map (·.2) := by
    intro name unseen
    constructor
    · intro member
      obtain ⟨pair, listed, same⟩ := List.mem_map.mp member
      exact unseen ⟨pair, listed, .inl same⟩
    · intro member
      obtain ⟨pair, listed, same⟩ := List.mem_map.mp member
      exact unseen ⟨pair, listed, .inr same⟩
  cases picked with
  | seen seen =>
    obtain ⟨first, second⟩ := sound.seen among seen
    exact ⟨untouched, rfl, fun new => absurd first new, fun new => absurd second new⟩
  | free unseen unused =>
    obtain ⟨first, second⟩ := written name unseen
    refine ⟨untouched, rfl, fun _ => ?_, fun _ => first⟩
    rw [List.mem_append, not_or]
    exact ⟨second, unused⟩
  | fresh unseen closed untaken =>
    refine ⟨⟨List.subset_cons_of_subset _ sound.tree, ?_, List.subset_cons_of_subset _ sound.closed,
      List.forall_mem_cons.mpr ⟨.inr ⟨fun member => untaken (sound.tree member), closed⟩,
        sound.kept⟩⟩, rfl, fun _ => ?_, fun _ => (written name unseen).1⟩
    · exact List.cons_subset.mpr ⟨List.mem_cons_self, List.subset_cons_of_subset _ sound.used⟩
    · rw [List.mem_append, not_or]
      exact ⟨fun member => untaken (sound.used member), fun member => untaken (sound.closed member)⟩

end

/-- The aliases chosen for a level are new exactly if its aliases are, among those of the levels
around. -/
theorem Sound.chosen {declared names : List String} {visible chosen : List Chosen}
    {before after : State} (sound : Sound declared visible before) (among : names ⊆ declared)
    (run : (chooseAll visible names).run before = (chosen, after)) :
    chosen.map (·.1) = names ∧ after.closed = before.closed ∧
      Sound declared (chosen ++ visible) after ∧
      (NewTo (visible.map (·.1)) names ↔
        NewTo (visible.map (·.2) ++ before.closed) (chosen.map (·.2))) := by
  induction names generalizing visible chosen before with
  | nil =>
    obtain ⟨rfl, rfl⟩ := Prod.mk.inj run
    exact ⟨rfl, rfl, sound, fun _ => .nil, fun _ => .nil⟩
  | cons name rest ih =>
    obtain ⟨here, further⟩ := List.cons_subset.mp among
    cases first : (choose visible name).run before with
    | mk used between =>
      cases others : (chooseAll ((name, used) :: visible) rest).run between with
      | mk next reached =>
        have runs : (chooseAll visible (name :: rest)).run before =
            ((name, used) :: next, reached) := by
          rw [chooseAll, run_bind first, run_bind others]
          rfl
        obtain ⟨rfl, rfl⟩ := Prod.mk.inj (runs.symm.trans run)
        obtain ⟨extended, closed, new⟩ := sound.picked here (choose_picked first)
        obtain ⟨written, same, reaches, inside⟩ := ih extended further others
        refine ⟨congrArg (name :: ·) written, same.trans closed,
          reaches.perm List.perm_middle, ?_⟩
        rw [List.map_cons, NewTo.cons, NewTo.cons, new, ← closed]
        exact and_congr_right fun _ => inside

end Siblings

end QueryGuard
