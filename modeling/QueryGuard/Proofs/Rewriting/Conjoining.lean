import QueryGuard.Proofs.Binding.Relabeling
import QueryGuard.Proofs.Rewriting.Additions
import QueryGuard.Proofs.Rewriting.Extension
/-!
Queries with further conditions: they have what the query has, and what the conditions have. With other
aliases, or with more conditions added later, they are the query with other conditions.
-/

set_option autoImplicit false

namespace QueryGuard

open Constraint

/-! ### Conditions put together -/

/-- The condition in parentheses, for use among others. -/
def Predicate.grouped : Predicate → Predicate
  | .group inner => .group inner
  | other => .group other

/-- The condition that all of the given ones hold. -/
def Predicate.joint : List Predicate → Predicate
  | [only] => only
  | several => .and (several.map grouped)

theorem conjoin_cons (condition : Option Predicate) (part : Predicate) (parts : List Predicate) :
    conjoin condition (part :: parts) =
      some (Predicate.joint (condition.toList ++ part :: parts)) := by
  cases condition <;> cases parts <;> rfl

/-- What a condition has of each kind, it has together with others as well. -/
theorem flatMap_conjoin {β : Type} {list : Predicate → List β}
    (and : ∀ operands, list (.and operands) = operands.flatMap list)
    (group : ∀ operand, list (.group operand) = list operand) (condition : Option Predicate)
    (parts : List Predicate) :
    (conjoin condition parts).toList.flatMap list = (condition.toList ++ parts).flatMap list := by
  have grouped : ∀ predicate, list (Predicate.grouped predicate) = list predicate := by
    intro predicate
    unfold Predicate.grouped
    split
    · rfl
    · exact group _
  have joint : ∀ operands, list (Predicate.joint operands) = operands.flatMap list := by
    intro operands
    unfold Predicate.joint
    split
    · exact (List.flatMap_singleton _ _).symm
    · rw [and, List.flatMap_map, funext grouped]
  cases parts with
  | nil => rw [conjoin_nil, List.append_nil]
  | cons part parts => rw [conjoin_cons, Option.toList_some, List.flatMap_singleton, joint]

/-- A function that keeps the form of conditions is applied to all that are put together. -/
theorem map_conjoin {g : Predicate → Predicate}
    (and : ∀ operands, g (.and operands) = .and (operands.map g))
    (grouped : ∀ predicate, g (Predicate.grouped predicate) = Predicate.grouped (g predicate))
    (condition : Option Predicate) (parts : List Predicate) :
    (conjoin condition parts).map g = conjoin (condition.map g) (parts.map g) := by
  have joint : ∀ operands, g (Predicate.joint operands) = Predicate.joint (operands.map g) := by
    intro operands
    rcases operands with _ | ⟨first, _ | ⟨second, rest⟩⟩
    · exact and []
    · rfl
    · refine (and _).trans (congrArg Predicate.and ?_)
      change _ = ((first :: second :: rest).map g).map Predicate.grouped
      rw [List.map_map, List.map_map]
      exact List.map_congr_left fun predicate _ => grouped predicate
  cases parts with
  | nil => rfl
  | cons part parts =>
    rw [conjoin_cons, List.map_cons, conjoin_cons, Option.map_some, joint, List.map_append,
      List.map_cons, Option.toList_map]

theorem relabel_conjoin (f : String → String) (condition : Option Predicate)
    (parts : List Predicate) :
    (conjoin condition parts).map (Predicate.relabel f) =
      conjoin (condition.map (Predicate.relabel f)) (parts.map (Predicate.relabel f)) :=
  map_conjoin (Predicate.relabel_and f)
    (fun predicate => by cases predicate <;> simp [Predicate.grouped]) condition parts

theorem extended_conjoin (parts : String → List Predicate) (condition : Option Predicate)
    (added : List Predicate) :
    (conjoin condition added).map (Predicate.extended parts) =
      conjoin (condition.map (Predicate.extended parts)) (added.map (Predicate.extended parts)) :=
  map_conjoin (Predicate.extended_and parts)
    (fun predicate => by cases predicate <;> simp [Predicate.grouped]) condition added

/-! ### Other aliases -/

theorem Select.map_relabel {α β : Type} (f : String → String) (g : α → β) (query : Select α) :
    (query.relabel f).map g = (query.map g).relabel f := by
  simp only [relabel, map, List.map_map, Function.comp_def, Join.map]

theorem Select.filterNames_relabel {α β : Type} (f : String → String) (g : α → β)
    (query : Select α) : ((query.map g).relabel f).filterNames = query.filterNames.map f := by
  simp only [filterNames, relabel, map, List.filter_map, List.map_map, List.map_cons,
    Function.comp_def, Join.map, Name.relabel]

section

variable {f : String → String} {parts parts' : String → List Predicate}

theorem Query.relabel_conjoined
    (same : ∀ name, parts' (f name) = (parts name).map (Predicate.relabel f)) (query : Query) :
    Select.relabel f (Select.map (Predicate.relabel f) (query.conjoined parts)) =
      Query.conjoined parts' (Select.relabel f (query.map (Predicate.relabel f))) := by
  have filtered : (query.filterNames.map f).flatMap parts' =
      (query.filterNames.flatMap parts).map (Predicate.relabel f) := by
    rw [List.flatMap_map, List.map_flatMap, funext same]
  rw [conjoined, conjoined, Select.filterNames_relabel, filtered]
  simp only [Select.relabel, Select.map, relabel_conjoin, List.map_map]
  congr 1
  refine List.map_congr_left fun join _ => ?_
  have named : parts' (join.name.relabel f).value =
      (parts join.name.value).map (Predicate.relabel f) := same join.name.value
  by_cases kind : join.kind = .left
  · simp only [Function.comp_apply, kind, ↓reduceIte, Join.map, relabel_conjoin, named]
  · simp only [Function.comp_apply, kind, ↓reduceIte, Join.map]

theorem Query.relabel_extended_of
    (same : ∀ name, parts' (f name) = (parts name).map (Predicate.relabel f)) {query : Query}
    (each : ∀ condition ∈ query.conditions,
      (condition.extended parts).relabel f = (condition.relabel f).extended parts') :
    (query.extended parts).relabel f = (query.relabel f).extended parts' := by
  rw [extended_eq, relabel_eq, relabel_conjoined same, extended_eq, relabel_eq, Select.map_relabel,
    Select.map_map, Select.map_map]
  refine congrArg (fun level => Query.conjoined parts' (Select.relabel f level)) ?_
  exact Select.map_congr each

/-- With other aliases, an extended query is the query with other aliases, extended by the conditions
with other aliases. -/
theorem Predicate.relabel_extended
    (same : ∀ name, parts' (f name) = (parts name).map (Predicate.relabel f))
    (predicate : Predicate) :
    (predicate.extended parts).relabel f = (predicate.relabel f).extended parts' := by
  have all : ∀ operands : List Predicate, (∀ operand ∈ operands,
      (operand.extended parts).relabel f = (operand.relabel f).extended parts') →
      (operands.map (extended parts)).map (relabel f) =
        (operands.map (relabel f)).map (extended parts') := by
    intro operands each
    rw [List.map_map, List.map_map]
    exact List.map_congr_left each
  induction predicate using Predicate.induction with
  | and operands ih =>
    rw [extended_and, relabel_and, relabel_and, extended_and, all operands ih]
  | or operands ih =>
    rw [extended_or, relabel_or, relabel_or, extended_or, all operands ih]
  | not operand ih => exact congrArg Predicate.not ih
  | group operand ih => exact congrArg Predicate.group ih
  | test test => rfl
  | inQuery tested query negated ih =>
    rw [extended_inQuery, relabel_inQuery, relabel_inQuery, extended_inQuery,
      Query.relabel_extended_of same ih]
  | existsIn query negated ih =>
    rw [extended_existsIn, relabel_existsIn, relabel_existsIn, extended_existsIn,
      Query.relabel_extended_of same ih]

theorem Query.relabel_extended
    (same : ∀ name, parts' (f name) = (parts name).map (Predicate.relabel f)) (query : Query) :
    (query.extended parts).relabel f = (query.relabel f).extended parts' :=
  relabel_extended_of same fun condition _ => condition.relabel_extended same

end

/-! ### Further conditions -/

/-- Conditions are added to a level whose conditions are changed. -/
theorem Query.map_conjoined {parts added : String → List Predicate}
    (unchanged : ∀ name, ∀ part ∈ added name, part.extended parts = part) (query : Query) :
    Select.map (Predicate.extended parts) (query.conjoined added) =
      Query.conjoined added (query.map (Predicate.extended parts)) := by
  have same : ∀ name, (added name).map (Predicate.extended parts) = added name := fun name =>
    (List.map_congr_left (unchanged name)).trans (List.map_id _)
  have filtered : (query.filterNames.flatMap added).map (Predicate.extended parts) =
      query.filterNames.flatMap added := by
    rw [List.map_flatMap, funext same]
  rw [conjoined, conjoined, Select.filterNames_map]
  simp only [Select.map, extended_conjoin, filtered, List.map_map]
  congr 1
  refine List.map_congr_left fun join _ => ?_
  by_cases kind : join.kind = .left
  · simp only [Function.comp_apply, kind, ↓reduceIte, Join.map, extended_conjoin, same]
  · simp only [Function.comp_apply, kind, ↓reduceIte, Join.map]

/-- A level that is extended twice gets the second conditions behind the first ones, if these are not
extended themselves. -/
theorem Query.extended_extended {first rest : String → List Predicate}
    (unchanged : ∀ name, ∀ part ∈ first name, part.extended rest = part) (query : Query) :
    (query.extended first).extended rest = conjoined rest (conjoined first
      (query.map fun condition => (condition.extended first).extended rest)) := by
  rw [extended_eq, extended_eq, map_conjoined unchanged, Select.map_map]
  rfl

theorem Query.filterNames_conjoined (parts : String → List Predicate) (query : Query) :
    (query.conjoined parts).filterNames = query.filterNames := by
  have kind : ∀ join : Join Predicate, (if join.kind = .left then
      { join with condition := conjoin join.condition (parts join.name.value) } else join).kind =
        join.kind := by
    intro join
    split <;> rfl
  have name : ∀ join : Join Predicate, (if join.kind = .left then
      { join with condition := conjoin join.condition (parts join.name.value) } else join).name =
        join.name := by
    intro join
    split <;> rfl
  simp only [Select.filterNames, conjoined, List.filter_map, List.map_map, Function.comp_def, kind,
    name]

namespace Binding

/-- A relation of lists of actions that is kept when lists are put together. -/
structure Congruent (related : List Action → List Action → Prop) : Prop where
  refl : ∀ actions, related actions actions
  append : ∀ {first first' rest rest' : List Action}, related first first' → related rest rest' →
    related (first ++ rest) (first' ++ rest')

theorem Congruent.flatMap {related : List Action → List Action → Prop}
    (congruent : Congruent related) {α : Type} {items : List α} {f g : α → List Action}
    (each : ∀ x ∈ items, related (f x) (g x)) : related (items.flatMap f) (items.flatMap g) := by
  induction items with
  | nil => exact congruent.refl []
  | cons first rest ih =>
    obtain ⟨here, others⟩ := List.forall_mem_cons.mp each
    exact congruent.append here (ih others)

variable {setting : Setting} {parts : String → List Predicate}

/-- Added conditions do not change the ranges of a level. -/
theorem rangeActions_conjoined (query : Query) (around : Visible) :
    rangeActions setting around (query.conjoined parts) = rangeActions setting around query ∧
      levelVisible setting around (query.conjoined parts) = levelVisible setting around query := by
  have same : List.Forall₂ Join.SameRange query.joins (query.conjoined parts).joins := by
    rw [Query.conjoined, List.forall₂_map_right_iff, List.forall₂_same]
    intro join _
    split <;> exact ⟨rfl, rfl, rfl⟩
  have root : (query.conjoined parts).root = query.root := rfl
  have agree : ∀ name ∈ query.aliases.map (·.value),
      setting.injected.lookup name = setting.injected.lookup name := fun _ _ => rfl
  obtain ⟨ranges, level⟩ := rangeActions_congr root same agree around
  exact ⟨ranges.symm, level.symm⟩

/-- The actions of a level with added conditions. -/
theorem queryActions_conjoined (query : Query) (around : Visible) :
    let visible := levelVisible setting around query
    queryActions setting (query.conjoined parts) around =
      rangeActions setting around query ++
        query.items.flatMap (exprActions visible ·.expr) ++
        query.joins.flatMap (fun join =>
          (join.condition.toList ++ if join.kind = .left then parts join.name.value else []).flatMap
            (conditionActions setting · visible)) ++
        (query.filter.toList ++ query.filterNames.flatMap parts).flatMap
          (conditionActions setting · visible) ++
        query.groupBy.flatMap (exprActions visible) ++
        query.having.toList.flatMap (conditionActions setting · visible) ++
        query.orderBy.flatMap (exprActions visible ·.expr) := by
  intro visible
  have conjoined : ∀ (condition : Option Predicate) (parts : List Predicate),
      (conjoin condition parts).toList.flatMap (conditionActions setting · visible) =
        (condition.toList ++ parts).flatMap (conditionActions setting · visible) :=
    flatMap_conjoin (fun operands => conditionActions_and operands visible) fun _ => rfl
  have joins : (query.conjoined parts).joins.flatMap (fun join =>
      join.condition.toList.flatMap (conditionActions setting · visible)) =
      query.joins.flatMap fun join =>
        (join.condition.toList ++ if join.kind = .left then parts join.name.value else []).flatMap
          (conditionActions setting · visible) := by
    rw [Query.conjoined, List.flatMap_map]
    refine congrArg (query.joins.flatMap ·) (funext fun join => ?_)
    by_cases kind : join.kind = .left
    · simp only [kind, ↓reduceIte, conjoined]
    · simp only [kind, ↓reduceIte, List.append_nil]
  have filter : (query.conjoined parts).filter.toList.flatMap (conditionActions setting · visible) =
      (query.filter.toList ++ query.filterNames.flatMap parts).flatMap
        (conditionActions setting · visible) := conjoined _ _
  rw [queryActions_eq, (rangeActions_conjoined query around).1, (rangeActions_conjoined query around).2,
    joins, filter]
  rfl

section

variable {first rest all : String → List Predicate}

/-- The actions of a level with conditions that are added one after the other. -/
theorem queryActions_conjoined_twice (query : Query) (around : Visible) :
    let visible := levelVisible setting around query
    queryActions setting (Query.conjoined rest (query.conjoined first)) around =
      rangeActions setting around query ++
        query.items.flatMap (exprActions visible ·.expr) ++
        query.joins.flatMap (fun join => (join.condition.toList ++
          if join.kind = .left then first join.name.value ++ rest join.name.value else []).flatMap
            (conditionActions setting · visible)) ++
        (query.filter.toList ++
          (query.filterNames.flatMap first ++ query.filterNames.flatMap rest)).flatMap
            (conditionActions setting · visible) ++
        query.groupBy.flatMap (exprActions visible) ++
        query.having.toList.flatMap (conditionActions setting · visible) ++
        query.orderBy.flatMap (exprActions visible ·.expr) := by
  intro visible
  have conjoined : ∀ (condition : Option Predicate) (parts others : List Predicate),
      ((conjoin condition parts).toList ++ others).flatMap (conditionActions setting · visible) =
        (condition.toList ++ (parts ++ others)).flatMap (conditionActions setting · visible) := by
    intro condition parts others
    rw [List.flatMap_append, flatMap_conjoin
      (fun operands => conditionActions_and operands visible) fun _ => rfl, ← List.flatMap_append,
      List.append_assoc]
  have joins : (query.conjoined first).joins.flatMap (fun join => (join.condition.toList ++
      if join.kind = .left then rest join.name.value else []).flatMap
        (conditionActions setting · visible)) =
      query.joins.flatMap fun join => (join.condition.toList ++
        if join.kind = .left then first join.name.value ++ rest join.name.value else []).flatMap
          (conditionActions setting · visible) := by
    rw [Query.conjoined, List.flatMap_map]
    refine congrArg (query.joins.flatMap ·) (funext fun join => ?_)
    by_cases kind : join.kind = .left
    · simp only [kind, ↓reduceIte, conjoined]
    · simp only [kind, ↓reduceIte]
  have filter : ((query.conjoined first).filter.toList ++ query.filterNames.flatMap rest).flatMap
      (conditionActions setting · visible) = (query.filter.toList ++ (query.filterNames.flatMap first ++
        query.filterNames.flatMap rest)).flatMap (conditionActions setting · visible) :=
    conjoined _ _ _
  rw [queryActions_conjoined, (rangeActions_conjoined query around).1,
    (rangeActions_conjoined query around).2, joins, Query.filterNames_conjoined, filter]
  rfl

variable {related : List Action → List Action → Prop} (congruent : Congruent related)
  (unchanged : ∀ name, ∀ part ∈ first name, part.extended rest = part)
  (added : ∀ (names : List String) (visible : Visible), related
    ((names.flatMap first ++ names.flatMap rest).flatMap (conditionActions setting · visible))
    ((names.flatMap all).flatMap (conditionActions setting · visible)))

include congruent unchanged added

/-- If the conditions for ranges have related actions, whether they are added one after the other or all
at once, the extended levels have, provided that their conditions have. -/
theorem queryActions_extended_of {query : Query}
    (each : ∀ condition ∈ query.conditions, ∀ visible, related
      (conditionActions setting ((condition.extended first).extended rest) visible)
      (conditionActions setting (condition.extended all) visible)) (around : Visible) :
    related (queryActions setting ((query.extended first).extended rest) around)
      (queryActions setting (query.extended all) around) := by
  let twice (condition : Predicate) : Predicate := (condition.extended first).extended rest
  have optional : ∀ (visible : Visible) (condition : Option Predicate),
      (∀ inner ∈ condition, inner ∈ query.conditions) → related
        ((condition.map twice).toList.flatMap (conditionActions setting · visible))
        ((condition.map (Predicate.extended all)).toList.flatMap
          (conditionActions setting · visible)) := by
    intro visible condition among
    cases condition with
    | none => exact congruent.refl []
    | some inner =>
      simp only [Option.map_some, Option.toList_some, List.flatMap_singleton]
      exact each inner (among inner rfl) visible
  rw [Query.extended_extended unchanged, Query.extended_eq, queryActions_conjoined_twice,
    queryActions_conjoined, rangeActions_map, rangeActions_map, levelVisible_map, levelVisible_map]
  generalize levelVisible setting around query = visible
  refine congruent.append (congruent.append (congruent.append (congruent.append
    (congruent.append (congruent.refl (_ ++ _)) ?joins) ?filter) (congruent.refl _))
    (optional visible query.having fun _ => Select.mem_of_having)) (congruent.refl _)
  case joins =>
    simp only [Select.map, List.flatMap_map, Join.map]
    refine congruent.flatMap fun join member => ?_
    rw [List.flatMap_append, List.flatMap_append]
    refine congruent.append (optional visible join.condition fun _ => Select.mem_of_join member) ?_
    by_cases kind : join.kind = .left
    · simp only [kind, ↓reduceIte]
      simpa using added [join.name.value] visible
    · simp only [kind, ↓reduceIte]
      exact congruent.refl []
  case filter =>
    have both := congruent.append (optional visible query.filter fun _ => Select.mem_of_filter)
      (added query.filterNames visible)
    rw [← List.flatMap_append, ← List.flatMap_append] at both
    rwa [Select.filterNames_map, Select.filterNames_map]

/-- Conditions for ranges may be added one after the other, or all at once. -/
theorem conditionActions_extended (condition : Predicate) (visible : Visible) :
    related (conditionActions setting ((condition.extended first).extended rest) visible)
      (conditionActions setting (condition.extended all) visible) := by
  have all' : ∀ (visible : Visible) (operands : List Predicate), (∀ operand ∈ operands, related
      (conditionActions setting ((operand.extended first).extended rest) visible)
      (conditionActions setting (operand.extended all) visible)) → related
      (((operands.map (Predicate.extended first)).map (Predicate.extended rest)).flatMap
        (conditionActions setting · visible))
      ((operands.map (Predicate.extended all)).flatMap (conditionActions setting · visible)) := by
    intro visible operands each
    rw [List.map_map, List.flatMap_map, List.flatMap_map]
    exact congruent.flatMap each
  induction condition using Predicate.induction generalizing visible with
  | and operands ih =>
    simp only [Predicate.extended_and, conditionActions_and]
    exact all' visible operands fun operand member => ih operand member visible
  | or operands ih =>
    simp only [Predicate.extended_or, conditionActions_or]
    exact all' visible operands fun operand member => ih operand member visible
  | not operand ih => exact ih visible
  | group operand ih => exact ih visible
  | test test => exact congruent.refl _
  | inQuery tested query negated ih =>
    simp only [Predicate.extended_inQuery, conditionActions_inQuery]
    exact congruent.append (congruent.refl _) (queryActions_extended_of congruent unchanged added ih _)
  | existsIn query negated ih =>
    simp only [Predicate.extended_existsIn, conditionActions_existsIn]
    exact queryActions_extended_of congruent unchanged added ih _

theorem queryActions_extended (query : Query) (around : Visible) :
    related (queryActions setting ((query.extended first).extended rest) around)
      (queryActions setting (query.extended all) around) :=
  queryActions_extended_of congruent unchanged added
    (fun condition _ => conditionActions_extended congruent unchanged added condition) around

end

end Binding

end QueryGuard
