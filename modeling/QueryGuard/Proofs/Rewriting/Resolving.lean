import QueryGuard.Proofs.Rewriting.Inventory
/-!
Looking up an extended query: it succeeds if looking up the query does, and if what is added for a range
can be looked up wherever the range is visible.
-/

set_option autoImplicit false

namespace QueryGuard

/-! ### Aliases -/

section

variable {parts : String → List Predicate}

/-- Added conditions without queries inside declare no aliases. -/
theorem Query.allAliases_conjoined (plain : ∀ name, ∀ part ∈ parts name, part.allAliases = [])
    (query : Query) : (query.conjoined parts).allAliases = query.allAliases := by
  have added : ∀ (condition : Option Predicate) (some : List Predicate),
      (∀ part ∈ some, part.allAliases = []) → (condition.toList ++ some).flatMap Predicate.allAliases =
        condition.toList.flatMap Predicate.allAliases := by
    intro condition some plain
    rw [List.flatMap_append, List.flatMap_eq_nil_iff.mpr plain, List.append_nil]
  have joins : ∀ join ∈ query.joins,
      (join.condition.toList ++ if join.kind = .left then parts join.name.value else []).flatMap
        Predicate.allAliases = join.condition.toList.flatMap Predicate.allAliases := by
    intro join _
    refine added _ _ fun part member => ?_
    split at member
    · exact plain _ part member
    · cases member
  rw [allAliases_eq, aliases_conjoined,
    flatMap_conditions_conjoined Predicate.allAliases_and fun _ => rfl, allAliases_eq,
    Select.flatMap_conditions, List.flatMap_congr joins,
    added query.filter _ (List.forall_mem_flatMap.mpr fun name _ => plain name)]

theorem Query.allAliases_extended_of (plain : ∀ name, ∀ part ∈ parts name, part.allAliases = [])
    {query : Query} (each : ∀ condition ∈ query.conditions,
      (condition.extended parts).allAliases = condition.allAliases) :
    (query.extended parts).allAliases = query.allAliases := by
  rw [extended_eq, allAliases_conjoined plain, allAliases_eq, allAliases_eq, Select.aliases_map,
    Select.conditions_map, List.flatMap_map, List.flatMap_congr each]

theorem Predicate.allAliases_extended (plain : ∀ name, ∀ part ∈ parts name, part.allAliases = [])
    (condition : Predicate) : (condition.extended parts).allAliases = condition.allAliases := by
  induction condition using Predicate.induction with
  | and operands ih =>
    rw [extended_and, allAliases_and, allAliases_and, List.flatMap_map, List.flatMap_congr ih]
  | or operands ih =>
    rw [extended_or, allAliases_or, allAliases_or, List.flatMap_map, List.flatMap_congr ih]
  | not operand ih => exact ih
  | group operand ih => exact ih
  | test test => rfl
  | inQuery tested query negated ih => exact Query.allAliases_extended_of plain ih
  | existsIn query negated ih => exact Query.allAliases_extended_of plain ih

theorem Query.allAliases_extended (plain : ∀ name, ∀ part ∈ parts name, part.allAliases = [])
    (query : Query) : (query.extended parts).allAliases = query.allAliases :=
  allAliases_extended_of plain fun condition _ => condition.allAliases_extended plain

end

/-! ### Actions -/

namespace Binding

variable {setting : Setting} {parts : String → List Predicate} {holds : Action → Prop}

/-- The alias of a range leads to its entity. -/
def Visible.Shows (visible : Visible) (range : BoundRange) : Prop :=
  visible.entities.lookup range.name = some range.entity

/-- A path that starts at a range is followed from its entity. -/
theorem Visible.Shows.resolve {schema : Schema} {visible : Visible} {range : BoundRange} {path : Path}
    {navigation : Navigation} (shows : visible.Shows range) (root : path.root.value = range.name)
    (navigates : schema.navigate range.entity path.attributeNames = .ok navigation) :
    Binding.resolve schema visible path = .ok navigation := by
  have found : visible.entities.lookup path.root.value = some range.entity := root ▸ shows
  simp only [Binding.resolve, found, navigates]
  rfl

/-- A level that declares each of its aliases once shows all of its ranges. -/
theorem levelVisible_shows {α : Type} {around : Visible} {query : Select α} {range : BoundRange}
    (distinct : (query.aliases.map (·.value)).Nodup)
    (member : range ∈ rangesOf (rangeActions setting around query)) :
    (levelVisible setting around query).Shows range := by
  let level := entries (rangesOf (rangeActions setting around query))
  have names : level.map (·.1) = query.aliases.map (·.value) := by
    rw [← names_rangeActions (α := α) around query]
    exact List.map_map
  have listed : (range.name, range.entity) ∈ level.reverse :=
    List.mem_reverse.mpr (List.mem_map_of_mem member)
  have unique : (level.reverse.map (·.1)).Nodup := by
    rw [List.map_reverse, List.nodup_reverse, names]
    exact distinct
  rw [Visible.Shows, levelVisible_entities, List.lookup_append, lookup_of_mem unique listed]
  rfl

/-- What is added for the ranges has the property at all levels that show them. -/
def Extendable (setting : Setting) (parts : String → List Predicate) (holds : Action → Prop)
    (ranges : List BoundRange) : Prop :=
  ∀ range ∈ ranges, ∀ part ∈ parts range.name, ∀ visible : Visible, visible.Shows range →
    ∀ action ∈ conditionActions setting part visible, holds action

/-- If the actions have the property and their ranges can be extended, the other ones have the
property, too. -/
def Passes (setting : Setting) (parts : String → List Predicate) (holds : Action → Prop)
    (actions others : List Action) : Prop :=
  Extendable setting parts holds (rangesOf actions) → (∀ action ∈ actions, holds action) →
    ∀ action ∈ others, holds action

theorem Passes.congruent : Congruent (Passes setting parts holds) where
  refl := fun _ _ all => all
  append := by
    intro first first' rest rest' here there extendable all
    rw [rangesOf_append] at extendable
    obtain ⟨ranges, ranges'⟩ := List.forall_mem_append.mp extendable
    obtain ⟨all, all'⟩ := List.forall_mem_append.mp all
    exact List.forall_mem_append.mpr ⟨here ranges all, there ranges' all'⟩

/-- The actions of a level with added conditions. -/
theorem mem_queryActions_conjoined {query : Query} {around : Visible} {action : Action} :
    action ∈ queryActions setting (query.conjoined parts) around ↔
      action ∈ rangeActions setting around query ∨
        (∃ expr ∈ query.exprs, action ∈ exprActions (levelVisible setting around query) expr) ∨
        (∃ condition ∈ query.conditions,
          action ∈ conditionActions setting condition (levelVisible setting around query)) ∨
        ∃ name ∈ query.aliases.map (·.value), ∃ part ∈ parts name,
          action ∈ conditionActions setting part (levelVisible setting around query) := by
  let visible := levelVisible setting around query
  let actions (condition : Predicate) : List Action := conditionActions setting condition visible
  have conditions : action ∈ (query.conjoined parts).conditions.flatMap actions ↔
      action ∈ query.conditions.flatMap actions ∨
        action ∈ ((query.aliases.map (·.value)).flatMap parts).flatMap actions :=
    Query.mem_conditions_conjoined (fun operands => conditionActions_and operands visible)
      (fun _ => rfl) query action
  rw [List.flatMap_assoc, List.mem_flatMap, List.mem_flatMap, List.mem_flatMap] at conditions
  simp only [List.mem_flatMap (f := actions)] at conditions
  rw [mem_queryActions, (rangeActions_conjoined query around).1,
    (rangeActions_conjoined query around).2, conditions]
  rfl

/-- A level passes a property on if its conditions do. -/
theorem queryActions_passes_of {query : Query} (distinct : query.allAliases.Nodup)
    (each : ∀ condition ∈ query.conditions, condition.allAliases.Nodup → ∀ visible,
      Passes setting parts holds (conditionActions setting condition visible)
        (conditionActions setting (condition.extended parts) visible)) (around : Visible) :
    Passes setting parts holds (queryActions setting query around)
      (queryActions setting (query.extended parts) around) := by
  rw [Query.allAliases_eq] at distinct
  obtain ⟨level, inside, _⟩ := List.nodup_append.mp distinct
  intro extendable all action member
  rw [Query.extended_eq, mem_queryActions_conjoined, rangeActions_map, levelVisible_map,
    Select.conditions_map, Select.aliases_map] at member
  let visible := levelVisible setting around query
  rcases member with ranged | ⟨expr, among, found⟩ | ⟨_, among, found⟩ | ⟨name, among, part, added, found⟩
  · exact all action (mem_queryActions.mpr (.inl ranged))
  · exact all action (mem_queryActions.mpr (.inr (.inl ⟨expr, among, found⟩)))
  · obtain ⟨condition, written, rfl⟩ := List.mem_map.mp among
    have among : conditionActions setting condition visible ⊆ queryActions setting query around :=
      conditionActions_subset_queryActions written around
    refine each condition written ((List.nodup_flatMap.mp inside).1 condition written) visible
      (fun range declared => ?_) (fun action found => ?_) action found
    · exact extendable range (rangesOf_subset among declared)
    · exact all action (among found)
  · -- the range of the alias is one of the level, which shows it
    have listed : name ∈ (rangesOf (rangeActions setting around query)).map (·.name) :=
      (names_rangeActions around query).symm ▸ among
    obtain ⟨range, declared, rfl⟩ := List.mem_map.mp listed
    have among : rangeActions setting around query ⊆ queryActions setting query around :=
      fun action found => mem_queryActions.mpr (.inl found)
    exact extendable range (rangesOf_subset among declared) part added visible
      (levelVisible_shows level declared) action found

theorem conditionActions_passes (condition : Predicate) (distinct : condition.allAliases.Nodup)
    (visible : Visible) : Passes setting parts holds (conditionActions setting condition visible)
      (conditionActions setting (condition.extended parts) visible) := by
  induction condition using Predicate.induction generalizing visible with
  | and operands ih =>
    rw [Predicate.allAliases_and] at distinct
    rw [Predicate.extended_and, conditionActions_and, conditionActions_and, List.flatMap_map]
    exact Passes.congruent.flatMap fun operand member =>
      ih operand member ((List.nodup_flatMap.mp distinct).1 operand member) visible
  | or operands ih =>
    rw [Predicate.allAliases_or] at distinct
    rw [Predicate.extended_or, conditionActions_or, conditionActions_or, List.flatMap_map]
    exact Passes.congruent.flatMap fun operand member =>
      ih operand member ((List.nodup_flatMap.mp distinct).1 operand member) visible
  | not operand ih => exact ih distinct visible
  | group operand ih => exact ih distinct visible
  | test test => exact Passes.congruent.refl _
  | inQuery tested query negated ih =>
    rw [Predicate.extended_inQuery, conditionActions_inQuery, conditionActions_inQuery]
    exact Passes.congruent.append (Passes.congruent.refl _) (queryActions_passes_of distinct ih _)
  | existsIn query negated ih =>
    rw [Predicate.extended_existsIn, conditionActions_existsIn, conditionActions_existsIn]
    exact queryActions_passes_of distinct ih _

/-- What holds of the actions of a query, and of those of all that is added for its ranges, holds of the
actions of the extended query. -/
theorem queryActions_passes {query : Query} (distinct : query.allAliases.Nodup) (around : Visible) :
    Passes setting parts holds (queryActions setting query around)
      (queryActions setting (query.extended parts) around) :=
  queryActions_passes_of distinct (fun condition _ => conditionActions_passes condition) around

end Binding

end QueryGuard
