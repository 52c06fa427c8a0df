import Mathlib.Data.List.Nodup
import QueryGuard.Proofs.Rewriting.Refilling
import QueryGuard.Proofs.Siblings.Choosing
import QueryGuard.Proofs.Siblings.Shape
/-!
Telling queries side by side apart leaves a tree in which all aliases are different, exactly if the
tree that it starts from declares each alias once.
-/

set_option autoImplicit false

namespace QueryGuard

namespace Siblings

/-- What the steps ensure of their results if they start where the invariant holds; they keep it. -/
def steady (invariant : State → Prop) : Ensuring (StateM State) where
  of step good := ∀ before value after, step.run before = (value, after) → invariant before →
    good value ∧ invariant after
  pure := by
    intro α value good holds before result after same kept
    obtain ⟨rfl, rfl⟩ := Prod.mk.inj same
    exact ⟨holds, kept⟩
  bind := by
    intro α β step next good good' first rest before result after same kept
    cases run : step.run before with
    | mk value between =>
      obtain ⟨holds, reached⟩ := first before value between run kept
      exact rest value holds between result after ((run_bind run).symm.trans same) reached

/-- A level is renamed, the queries inside it are left to the given step, and then its aliases are
no longer visible. -/
theorem level_run {nested : List Chosen → Query → StateM State Query} {visible chosen : List Chosen}
    {query result : Query} {before between reached : State}
    (choice : (chooseAll visible (query.aliases.map (·.value))).run before = (chosen, between))
    (inside : ((query.rename (changes chosen)).mapSubqueries (nested (chosen ++ visible))).run
      between = (result, reached)) :
    (level nested visible query).run before =
      (result, { reached with closed := chosen.map (·.2) ++ reached.closed }) := by
  rw [level, run_bind choice, run_bind inside]
  rfl

/-- What a level goes through. -/
theorem of_level_run {nested : List Chosen → Query → StateM State Query} {visible : List Chosen}
    {query result : Query} {before after : State}
    (run : (level nested visible query).run before = (result, after)) :
    ∃ chosen between reached,
      (chooseAll visible (query.aliases.map (·.value))).run before = (chosen, between) ∧
      ((query.rename (changes chosen)).mapSubqueries (nested (chosen ++ visible))).run between =
        (result, reached) ∧
      after = { reached with closed := chosen.map (·.2) ++ reached.closed } := by
  cases choice : (chooseAll visible (query.aliases.map (·.value))).run before with
  | mk chosen between =>
    cases inside : ((query.rename (changes chosen)).mapSubqueries
        (nested (chosen ++ visible))).run between with
    | mk other reached =>
      obtain ⟨rfl, rfl⟩ := Prod.mk.inj ((level_run choice inside).symm.trans run)
      exact ⟨chosen, between, reached, rfl, inside, rfl⟩

/-- Replacing the queries inside a query changes no alias of its level, and takes the step for each
of them. -/
theorem mapSubqueries_run {step : Query → StateM State Query} {query result : Query}
    {before after : State} (run : (query.mapSubqueries step).run before = (result, after)) :
    result.aliases = query.aliases ∧
      (query.subqueries.mapM step).run before = (result.subqueries, after) := by
  have each : ∀ inner ∈ query.subqueries, (steady fun _ => True).of (step inner) fun _ => True :=
    fun _ _ _ _ _ _ _ => ⟨trivial, trivial⟩
  have replaced := (query.mapSubqueries_ensures _ each) before result after run trivial
  refine ⟨Select.Related.aliases replaced.1, ?_⟩
  rw [← Query.subqueries_mapSubqueries, StateT.run_map, run]
  rfl

/-! ### All aliases -/

/-- What becomes of a query between two states. Its aliases are new exactly if it declares each once
and none of the visible ones, and then they are what is left behind. -/
structure Separated (declared : List String) (visible : List Chosen) (query result : Query)
    (before after : State) : Prop where
  sound : Sound declared visible after
  grows : before.closed ⊆ after.closed
  exact : query.ApartFrom (visible.map (·.1)) ↔
    NewTo (visible.map (·.2) ++ before.closed) result.allAliases
  left : query.ApartFrom (visible.map (·.1)) →
    ∀ name, name ∈ after.closed ↔ name ∈ result.allAliases ∨ name ∈ before.closed

/-- Taking a step for several queries, one after the other, separates them all. -/
theorem separated_mapM {declared : List String} {visible : List Chosen}
    {step : Query → StateM State Query} {queries results : List Query} {before after : State}
    (each : ∀ query ∈ queries, ∀ before result after, Sound declared visible before →
      (step query).run before = (result, after) →
      Separated declared visible query result before after)
    (sound : Sound declared visible before)
    (run : (queries.mapM step).run before = (results, after)) :
    Sound declared visible after ∧ before.closed ⊆ after.closed ∧
      ((∀ query ∈ queries, query.ApartFrom (visible.map (·.1))) ↔
        NewTo (visible.map (·.2) ++ before.closed) (results.flatMap Query.allAliases)) ∧
      ((∀ query ∈ queries, query.ApartFrom (visible.map (·.1))) → ∀ name,
        name ∈ after.closed ↔ name ∈ results.flatMap Query.allAliases ∨ name ∈ before.closed) := by
  induction queries generalizing results before with
  | nil =>
    rw [List.mapM_nil] at run
    obtain ⟨rfl, rfl⟩ := Prod.mk.inj run
    exact ⟨sound, List.Subset.refl _, ⟨fun _ => .nil, fun _ _ member => nomatch member⟩, by simp⟩
  | cons first rest ih =>
    cases here : (step first).run before with
    | mk result between =>
      cases further : (rest.mapM step).run between with
      | mk others reached =>
        rw [List.mapM_cons, run_bind here, run_bind further] at run
        obtain ⟨rfl, rfl⟩ := Prod.mk.inj run
        have separated := each first List.mem_cons_self before result between sound here
        obtain ⟨sound, grows, exact, left⟩ := ih
          (fun query member => each query (List.mem_cons_of_mem _ member)) separated.sound further
        have outside : first.ApartFrom (visible.map (·.1)) →
            ∀ name, name ∈ visible.map (·.2) ++ between.closed ↔
              name ∈ result.allAliases ++ (visible.map (·.2) ++ before.closed) := by
          intro apart name
          simp only [List.mem_append, separated.left apart name]
          tauto
        refine ⟨sound, List.Subset.trans separated.grows grows, ?_, fun apart name => ?_⟩
        · rw [List.flatMap_cons, NewTo.append, ← separated.exact, List.forall_mem_cons]
          refine and_congr_right fun apart => ?_
          rw [exact, NewTo.congr (outside apart)]
        · obtain ⟨apart, others⟩ := List.forall_mem_cons.mp apart
          rw [left others, separated.left apart, List.flatMap_cons, List.mem_append]
          tauto

/-- The aliases of a level that declares each once become the chosen ones. -/
theorem map_apply_changes {chosen : List Chosen} (distinct : (chosen.map (·.1)).Nodup) :
    (chosen.map (·.1)).map (Renaming.apply (changes chosen)) = chosen.map (·.2) := by
  have length : (chosen.map (·.1)).length = (chosen.map (·.2)).length := by
    rw [List.length_map, List.length_map]
  have applied := Renaming.map_apply_zip length distinct
  rw [Constraint.zip_chosen] at applied
  rw [funext (Constraint.apply_changes distinct)]
  exact applied

/-- A query with the aliases of a renamed level has the chosen ones. -/
theorem aliases_chosen {chosen : List Chosen} {query result : Query}
    (written : chosen.map (·.1) = query.aliases.map (·.value))
    (aliases : result.aliases = (query.rename (changes chosen)).aliases)
    (distinct : (chosen.map (·.1)).Nodup) :
    result.aliases.map (·.value) = chosen.map (·.2) := by
  rw [← map_apply_changes distinct, aliases, Query.aliases_rename, written, List.map_map,
    List.map_map]
  rfl

/-- When a level is left, its aliases are no longer visible, but still in use. -/
theorem Sound.leave {declared : List String} {visible chosen : List Chosen} {state : State}
    (sound : Sound declared (chosen ++ visible) state) :
    Sound declared visible { state with closed := chosen.map (·.2) ++ state.closed } := by
  have used : chosen.map (·.2) ++ visible.map (·.2) ⊆ state.taken := by
    rw [← List.map_append]
    exact sound.used
  obtain ⟨own, outer⟩ := List.append_subset.mp used
  refine ⟨sound.tree, outer, List.append_subset.mpr ⟨own, sound.closed⟩, fun pair member => ?_⟩
  exact (sound.kept pair (List.mem_append_right _ member)).imp id fun renamed =>
    ⟨renamed.1, List.mem_append_right _ renamed.2⟩

/-- A level separates if the queries inside it do. -/
theorem level_separated {declared : List String} {nested : List Chosen → Query → StateM State Query}
    {visible : List Chosen} {query result : Query} {before after : State}
    (among : query.allAliases ⊆ declared) (sound : Sound declared visible before)
    (inside : ∀ inner : Query, inner.nesting < query.nesting → inner.allAliases ⊆ declared →
      ∀ visible before result after, Sound declared visible before →
        (nested visible inner).run before = (result, after) →
        Separated declared visible inner result before after)
    (run : (level nested visible query).run before = (result, after)) :
    Separated declared visible query result before after := by
  obtain ⟨chosen, between, reached, choice, replaced, rfl⟩ := of_level_run run
  have own : query.aliases.map (·.value) ⊆ declared := List.Subset.trans query.aliases_subset among
  obtain ⟨written, closed, extended, fresh⟩ := sound.chosen own choice
  obtain ⟨aliases, taken⟩ := mapSubqueries_run replaced
  have each : ∀ inner ∈ (query.rename (changes chosen)).subqueries, ∀ before result after,
      Sound declared (chosen ++ visible) before →
      (nested (chosen ++ visible) inner).run before = (result, after) →
      Separated declared (chosen ++ visible) inner result before after := by
    intro inner member
    obtain ⟨smaller, aliases⟩ := Query.smaller_of_rename member
    exact inside inner smaller (List.Subset.trans aliases among) (chosen ++ visible)
  obtain ⟨reaches, grows, exact, left⟩ := separated_mapM each extended taken
  have apart : query.ApartFrom (visible.map (·.1)) ↔
      NewTo (visible.map (·.1)) (chosen.map (·.1)) ∧
        ∀ inner ∈ (query.rename (changes chosen)).subqueries,
          inner.ApartFrom ((chosen ++ visible).map (·.1)) := by
    rw [List.map_append, written]
    exact query.apartFrom_rename (changes chosen)
  have level := aliases_chosen written aliases
  -- a level that declares an alias twice still does so when it has been renamed
  have same : NewTo (visible.map (·.1)) (chosen.map (·.1)) ↔
      NewTo (visible.map (·.2) ++ before.closed) (result.aliases.map (·.value)) := by
    constructor
    · intro new
      rw [level new.1]
      exact fresh.mp (written ▸ new)
    · intro new
      have distinct : (chosen.map (·.1)).Nodup := by
        have renamed := new.1
        rw [aliases, Query.aliases_rename, List.map_map] at renamed
        rw [written]
        exact List.Nodup.of_map (Renaming.apply (changes chosen)) (by rwa [List.map_map])
      rw [level distinct] at new
      exact written ▸ fresh.mpr new
  have outer : (chosen ++ visible).map (·.2) ++ between.closed =
      chosen.map (·.2) ++ (visible.map (·.2) ++ before.closed) := by
    rw [List.map_append, List.append_assoc, closed]
  refine ⟨reaches.leave, ?_, ?_, ?_⟩
  · exact fun name member => List.mem_append_right _ (grows (closed ▸ member))
  · rw [apart, same, result.allAliases_eq_subqueries, NewTo.append]
    refine and_congr_right fun new => ?_
    rw [level (same.mpr new).1, exact, outer]
  · intro new name
    obtain ⟨first, others⟩ := apart.mp new
    rw [List.mem_append, left others, result.allAliases_eq_subqueries, level first.1,
      List.mem_append, closed, or_assoc]

theorem levels_separated {declared : List String} (depth : Nat) {query : Query}
    (within : query.nesting ≤ depth) (among : query.allAliases ⊆ declared) (visible : List Chosen)
    (before : State) (result : Query) (after : State) (sound : Sound declared visible before)
    (run : (levels depth visible query).run before = (result, after)) :
    Separated declared visible query result before after := by
  induction depth generalizing query visible before result after with
  | zero =>
    refine level_separated among sound (fun inner smaller => ?_) run
    omega
  | succ depth ih =>
    refine level_separated among sound (fun inner smaller among visible before result after => ?_) run
    exact ih (by omega) among visible before result after

end Siblings

/-- All aliases of the separated query are different exactly if the query declares each alias once
among those that are visible where it does. -/
theorem Query.nodup_separateSiblings (query : Query) :
    query.separateSiblings.allAliases.Nodup ↔ query.DeclaresOnce := by
  cases run : (Siblings.levels query.nesting [] query).run ⟨query.allAliases, []⟩ with
  | mk result after =>
    have separated := Siblings.levels_separated query.nesting (Nat.le_refl _)
      (List.Subset.refl query.allAliases) [] _ result after ⟨List.Subset.refl _,
        List.nil_subset _, List.nil_subset _, fun _ member => nomatch member⟩ run
    have same : query.separateSiblings = result := congrArg Prod.fst run
    rw [same, ← NewTo.nothing_outside, ← apartFrom_nil]
    exact separated.exact.symm

end QueryGuard
