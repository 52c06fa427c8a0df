import QueryGuard.Proofs.Rewriting.Claims
import QueryGuard.Proofs.Rewriting.Conjoining
/-!
Trees with the same actions in another order, and with other aliases, have corresponding models.
-/

set_option autoImplicit false

namespace QueryGuard

namespace Binding

/-! ### Types of parameters -/

section

variable {setting : Setting} {schema : Schema}

/-- The types that actions note for a parameter, in their order. -/
def typesFor (schema : Schema) (name : String) (actions : List Action) :
    List (String × ScalarType) :=
  (typesOf schema actions).filter fun noted => name == noted.1

theorem lookup_filter {α : Type} (name : String) (pairs : List (String × α)) :
    (pairs.filter fun pair => name == pair.1).lookup name = pairs.lookup name := by
  induction pairs with
  | nil => rfl
  | cons pair rest ih =>
    obtain ⟨key, value⟩ := pair
    cases same : name == key with
    | true => simp only [List.filter_cons, List.lookup_cons, same, ↓reduceIte]
    | false => simp only [List.filter_cons, List.lookup_cons, same, Bool.false_eq_true, ↓reduceIte, ih]

/-- Which type a parameter gets, only those tell that are noted for it. -/
theorem lookup_typesOf {name : String} {actions others : List Action}
    (same : typesFor schema name actions = typesFor schema name others) :
    (typesOf schema actions).reverse.lookup name = (typesOf schema others).reverse.lookup name := by
  rw [← lookup_filter, ← lookup_filter name (typesOf schema others).reverse, List.filter_reverse,
    List.filter_reverse]
  exact congrArg (·.reverse.lookup name) same

theorem congruent_perm : Congruent List.Perm :=
  ⟨List.Perm.refl, List.Perm.append⟩

theorem congruent_typesFor (schema : Schema) (name : String) :
    Congruent fun actions others => typesFor schema name actions = typesFor schema name others := by
  refine ⟨fun _ => rfl, fun here there => ?_⟩
  rw [typesFor, typesFor, typesOf_append, typesOf_append, List.filter_append, List.filter_append]
  exact congrArg₂ (· ++ ·) here there

theorem note_not_mem_exprActions {visible seen : Visible} {parameter : Name} {path : Path}
    (expr : Expr) : .note seen parameter path ∉ exprActions visible expr := by
  simp [exprActions]

theorem note_not_mem_rangeActions {α : Type} {around seen : Visible} {parameter : Name} {path : Path}
    (query : Select α) : .note seen parameter path ∉ rangeActions setting around query := by
  have joined : ∀ (visible : Visible) (joins : List (Join α)),
      .note seen parameter path ∉ joinsActions setting visible joins := by
    intro visible joins
    induction joins generalizing visible with
    | nil => exact List.not_mem_nil
    | cons join rest ih =>
      rw [joinsActions, List.mem_append, not_or]
      refine ⟨?_, ih _⟩
      cases target : join.target <;> simp [joinActions, target, targetActions]
  simp [rangeActions, joined]

theorem note_mem_noteActions {visible seen : Visible} {parameter : Name} {path : Path}
    {compared : Expr × Expr} (member : .note seen parameter path ∈ noteActions visible compared) :
    compared.1 = .parameter parameter := by
  unfold noteActions at member
  split at member
  · obtain ⟨_, rfl, _⟩ := Action.note.inj (List.mem_singleton.mp member)
    rfl
  · cases member

theorem note_mem_testActions {visible seen : Visible} {parameter : Name} {path : Path} {test : Test}
    (member : .note seen parameter path ∈ testActions visible test) : parameter ∈ test.markers := by
  rw [testActions, List.mem_append, List.mem_flatMap, List.mem_flatMap] at member
  rcases member with ⟨expr, _, listed⟩ | ⟨compared, among, listed⟩
  · exact absurd listed (note_not_mem_exprActions expr)
  · have same := note_mem_noteActions listed
    have marked : compared.1 ∈ test.exprs → parameter ∈ test.exprs.flatMap Expr.markers := by
      rw [same]
      exact fun found => List.mem_flatMap.mpr ⟨_, found, List.mem_cons_self⟩
    cases test with
    | inParameter tested other negated =>
      obtain rfl := List.mem_singleton.mp among
      obtain rfl := Expr.parameter.inj same
      exact List.mem_append_right _ List.mem_cons_self
    | inList tested items negated =>
      obtain ⟨item, found, rfl⟩ := List.mem_map.mp among
      exact marked (List.mem_cons_of_mem _ found)
    | isNull tested negated => cases among
    | compare left comparison right =>
      simp only [Test.compared, List.mem_cons, List.not_mem_nil, or_false] at among
      rcases among with rfl | rfl
      · exact marked (List.mem_cons_of_mem _ List.mem_cons_self)
      · exact marked List.mem_cons_self
    | between tested low high negated =>
      simp only [Test.compared, List.mem_cons, List.not_mem_nil, or_false] at among
      rcases among with rfl | rfl
      · exact marked (List.mem_cons_of_mem _ List.mem_cons_self)
      · exact marked (List.mem_cons_of_mem _ (List.mem_cons_of_mem _ List.mem_cons_self))
    | like tested pattern escape negated =>
      obtain rfl := List.mem_singleton.mp among
      exact marked (List.mem_cons_of_mem _ List.mem_cons_self)

/-- Types are noted for the parameters of a condition only. -/
theorem note_mem_conditionActions {condition : Predicate} {visible seen : Visible} {parameter : Name}
    {path : Path} (member : .note seen parameter path ∈ conditionActions setting condition visible) :
    parameter ∈ condition.markers := by
  have inside : ∀ {query : Query} {around : Visible}, (∀ condition ∈ query.conditions,
      ∀ {visible}, .note seen parameter path ∈ conditionActions setting condition visible →
        parameter ∈ condition.markers) →
      .note seen parameter path ∈ queryActions setting query around → parameter ∈ query.markers := by
    intro query around each listed
    rcases mem_queryActions.mp listed with ofRanges | ⟨expr, _, ofExpr⟩ | ⟨inner, among, ofInner⟩
    · exact absurd ofRanges (note_not_mem_rangeActions query)
    · exact absurd ofExpr (note_not_mem_exprActions expr)
    · exact Query.mem_markers.mpr (.inr (List.mem_flatMap.mpr ⟨inner, among, each inner among ofInner⟩))
  induction condition using Predicate.induction generalizing visible with
  | and operands ih =>
    rw [conditionActions_and] at member
    obtain ⟨operand, among, listed⟩ := List.mem_flatMap.mp member
    rw [Predicate.markers_and]
    exact List.mem_flatMap.mpr ⟨operand, among, ih operand among listed⟩
  | or operands ih =>
    rw [conditionActions_or] at member
    obtain ⟨operand, among, listed⟩ := List.mem_flatMap.mp member
    rw [Predicate.markers_or]
    exact List.mem_flatMap.mpr ⟨operand, among, ih operand among listed⟩
  | not operand ih => exact ih member
  | group operand ih => exact ih member
  | test test => exact note_mem_testActions member
  | inQuery tested query negated ih =>
    rw [conditionActions_inQuery] at member
    rcases List.mem_append.mp member with listed | listed
    · exact absurd listed (note_not_mem_exprActions tested)
    · exact List.mem_append_right _ (inside ih listed)
  | existsIn query negated ih =>
    rw [conditionActions_existsIn] at member
    exact inside ih member

/-- No type is noted for a parameter that a condition does not mention. -/
theorem typesFor_conditionActions {condition : Predicate} {name : String}
    (unmarked : name ∉ condition.markers.map (·.value)) (visible : Visible) :
    typesFor schema name (conditionActions setting condition visible) = [] := by
  rw [typesFor, List.filter_eq_nil_iff]
  intro noted member same
  obtain ⟨action, among, type⟩ := List.mem_filterMap.mp member
  cases action with
  | note seen parameter path =>
    have named : noted.1 = parameter.value := by
      rw [Action.type?] at type
      split at type
      · obtain ⟨_, _, rfl⟩ := Option.map_eq_some_iff.mp type
        rfl
      · cases type
    refine unmarked (List.mem_map.mpr ⟨parameter, note_mem_conditionActions among, ?_⟩)
    rw [beq_iff_eq.mp same, named]
  | require => cases type
  | follow => cases type
  | expectEntity => cases type
  | declare => cases type

end

theorem follow_mem_relabel {f : String → String} {actions : List Action} {seen : Visible}
    {path : Path} :
    .follow seen path ∈ actions.map (Action.relabel f) ↔ ∃ seen' path',
      .follow seen' path' ∈ actions ∧ seen = seen'.relabel f ∧ path = path'.relabel f := by
  rw [List.mem_map]
  constructor
  · rintro ⟨action, member, same⟩
    cases action with
    | follow seen' path' =>
      obtain ⟨rfl, rfl⟩ := Action.follow.inj same
      exact ⟨seen', path', member, rfl, rfl⟩
    | require => cases same
    | expectEntity => cases same
    | note => cases same
    | declare => cases same
  · rintro ⟨seen', path', member, rfl, rfl⟩
    exact ⟨_, member, rfl⟩

theorem key_relabel {f : String → String} (injective : f.Injective) (first second : Path) :
    (first.relabel f).key = (second.relabel f).key ↔ first.key = second.key := by
  have root : (first.relabel f).root.value = (second.relabel f).root.value ↔
      first.root.value = second.root.value := injective.eq_iff
  rw [Path.key, Path.key, Path.key, Path.key, PathKey.mk.injEq, PathKey.mk.injEq, root]
  rfl

end Binding

/-! ### Parameters -/

/-- The parameters begin with those of the names; the order of the others differs. -/
def ParameterMap.Reordered (names : List String) (first second : ParameterMap) : Prop :=
  ∃ kept added added', first.entries = kept ++ added ∧ second.entries = kept ++ added' ∧
    added.Perm added' ∧ kept.map (·.1) = names

namespace ParameterMap

variable {names : List String} {first second parameters : ParameterMap}

/-- In another order, claims that can be granted add the same parameters in another order. -/
theorem reordered_grantAll {markers : List String} {claims others : List Claim}
    (consistent : Consistent claims) (same : claims.Perm others)
    (accepts : Accepts markers parameters claims) :
    Reordered parameters.names (parameters.grantAll claims) (parameters.grantAll others) := by
  have compatible := ((accepts_iff consistent).mp accepts).2
  have compatible' := (same.pairwise_iff Claim.Compatible.symm).mp compatible
  obtain ⟨added, entries, among⟩ := entries_grantAll compatible
  obtain ⟨added', entries', among'⟩ := entries_grantAll compatible'
  have nodup : ∀ {all : ParameterMap} {added : List (String × Binding)},
      all.entries = parameters.entries ++ added → added.Nodup := by
    intro all added entries
    have names := all.nodup
    rw [entries, List.map_append, List.nodup_append] at names
    exact List.Nodup.of_map _ names.2.1
  refine ⟨parameters.entries, added, added', entries, entries', ?_, rfl⟩
  rw [List.perm_ext_iff_of_nodup (nodup entries) (nodup entries')]
  intro entry
  rw [among, among']
  simp only [same.mem_iff]

theorem Reordered.setTypes (reordered : Reordered names first second)
    {types types' : List (String × ScalarType)}
    (same : ∀ name, types.reverse.lookup name = types'.reverse.lookup name) :
    Reordered names
      (types.foldl (fun parameters (name, type) => parameters.setType name type) first)
      (types'.foldl (fun parameters (name, type) => parameters.setType name type) second) := by
  obtain ⟨kept, added, added', entries, entries', perm, begin⟩ := reordered
  let noted (entry : String × Binding) : String × Binding :=
    (entry.1, { entry.2 with
      declaredType := (types.reverse.lookup entry.1).or entry.2.declaredType })
  refine ⟨kept.map noted, added.map noted, added'.map noted, ?_, ?_, perm.map noted, ?_⟩
  · rw [entries_setTypes, entries, List.map_append]
  · rw [entries_setTypes, entries', List.map_append]
    simp only [← same]
    rfl
  · rw [List.map_map]
    exact begin

end ParameterMap

/-! ### Models -/

/-- The models have the same ranges, up to order and aliases, and paths lead to the same. -/
structure Model.Corresponds (f : String → String) (first second : Model) : Prop where
  ranges : (first.ranges.map (BoundRange.relabel f)).Perm second.ranges
  navigations : ∀ path : Path, second.navigation? (path.relabel f) = first.navigation? path

namespace Model

open Binding

variable {schema : Schema} {query other : Query} {parameters parameters' : ParameterMap}
  {applied applied' : List String} {injected injected' : List (String × String)}
  {first second : Model} {f : String → String}

/-- Trees with the same actions, up to order and aliases, can both be looked up or neither can. -/
theorem ofTree_ok_congr (injective : f.Injective)
    (same : ((queryActions ⟨schema, injected⟩ query ⟨[], 0⟩).map (Action.relabel f)).Perm
      (queryActions ⟨schema, injected'⟩ other ⟨[], 0⟩)) :
    (∃ model, ofTree schema query parameters applied injected = .ok model) ↔
      ∃ model, ofTree schema other parameters' applied' injected' = .ok model := by
  have holds : (∀ action ∈ queryActions ⟨schema, injected⟩ query ⟨[], 0⟩, action.Holds schema) ↔
      ∀ action ∈ queryActions ⟨schema, injected'⟩ other ⟨[], 0⟩, action.Holds schema := by
    simp only [← same.mem_iff, List.forall_mem_map, Action.holds_relabel injective]
  have names : (query.allAliases.map f).Perm other.allAliases := by
    have ranges := (same.filterMap Action.range?).map (·.name)
    change ((rangesOf _).map _).Perm ((rangesOf _).map _) at ranges
    rw [rangesOf_relabel, names_queryActions, List.map_map] at ranges
    rw [← names_queryActions query ⟨[], 0⟩, List.map_map]
    exact ranges
  rw [ofTree_ok_iff, ofTree_ok_iff, holds, ← names.nodup_iff, List.nodup_map_iff injective]

theorem ofTree_corresponds (injective : f.Injective)
    (same : ((queryActions ⟨schema, injected⟩ query ⟨[], 0⟩).map (Action.relabel f)).Perm
      (queryActions ⟨schema, injected'⟩ other ⟨[], 0⟩))
    (result : ofTree schema query parameters applied injected = .ok first)
    (result' : ofTree schema other parameters' applied' injected' = .ok second) :
    first.Corresponds f second := by
  refine ⟨?_, fun path => ?_⟩
  · rw [ofTree_ranges result, ofTree_ranges result', ← rangesOf_relabel]
    exact same.filterMap _
  · apply Option.ext
    intro navigation
    rw [ofTree_navigation_iff result, ofTree_navigation_iff result']
    constructor
    · rintro ⟨seen, followed, member, key, leads⟩
      obtain ⟨seen', path', among, rfl, rfl⟩ := follow_mem_relabel.mp (same.symm.subset member)
      exact ⟨seen', path', among, (key_relabel injective _ _).mp key,
        (resolve_relabel_iff injective _ _ _).mp leads⟩
    · rintro ⟨seen, followed, member, key, leads⟩
      exact ⟨_, _, same.subset (follow_mem_relabel.mpr ⟨seen, followed, member, rfl, rfl⟩),
        (key_relabel injective _ _).mpr key, (resolve_relabel_iff injective _ _ _).mpr leads⟩

theorem ofTree_reordered {names : List String} (reordered : parameters.Reordered names parameters')
    (same : ∀ name, typesFor schema name (queryActions ⟨schema, injected⟩ query ⟨[], 0⟩) =
      typesFor schema name (queryActions ⟨schema, injected'⟩ other ⟨[], 0⟩))
    (result : ofTree schema query parameters applied injected = .ok first)
    (result' : ofTree schema other parameters' applied' injected' = .ok second) :
    first.parameters.Reordered names second.parameters := by
  rw [ofTree_parameters result, ofTree_parameters result']
  exact reordered.setTypes fun name => lookup_typesOf (same name)

end Model

end QueryGuard
