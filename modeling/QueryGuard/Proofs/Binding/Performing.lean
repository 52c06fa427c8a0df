import QueryGuard.Proofs.Binding.Entities
/-!
Whether a tree can be looked up, and what its model is then, said by its actions: each of them can be
performed alone, and no alias is declared twice. Only the types of parameters depend on the order.
-/

set_option autoImplicit false

namespace QueryGuard

namespace Binding

section

variable (schema : Schema)

/-- The action can be performed, if the alias is new that it declares. -/
def Action.Holds : Action → Prop
  | .require _ entity => schema.contains entity.value = true
  | .follow visible path => ∃ navigation, resolve schema visible path = .ok navigation
  | .expectEntity visible path =>
      ∃ navigation, resolve schema visible path = .ok navigation ∧ navigation.entity?.isSome = true
  | .note visible _ path => ∃ navigation, resolve schema visible path = .ok navigation
  | .declare _ => True

/-- The type that an action notes for a parameter. -/
def Action.type? : Action → Option (String × ScalarType)
  | .note visible parameter path =>
      match resolve schema visible path with
      | .ok navigation => navigation.scalarType?.map (parameter.value, ·)
      | .error _ => none
  | _ => none

/-- The types that actions note, in their order. -/
def typesOf (actions : List Action) : List (String × ScalarType) :=
  actions.filterMap (Action.type? schema)

end

variable {setting : Setting}

theorem typesOf_append (schema : Schema) (first rest : List Action) :
    typesOf schema (first ++ rest) = typesOf schema first ++ typesOf schema rest :=
  List.filterMap_append

/-- An action is performed if and only if it holds and declares no alias that is in use; it adds the type
that it notes. -/
structure Foretold (setting : Setting) (action : Action) (before : Found) : Prop where
  succeeds : action.Holds setting.schema → (∀ range ∈ action.range?,
    range.name ∉ before.ranges.map (·.name)) →
    ∃ after, (perform setting action).run before = .ok ((), after)
  holds : ∀ after, (perform setting action).run before = .ok ((), after) →
    action.Holds setting.schema ∧ after.types = before.types ++ (action.type? setting.schema).toList

namespace Foretold

variable {action : Action} {before : Found}

theorem ok {after : Found} (runs : (perform setting action).run before = .ok ((), after))
    (holds : action.Holds setting.schema)
    (types : after.types = before.types ++ (action.type? setting.schema).toList) :
    Foretold setting action before := by
  refine ⟨fun _ _ => ⟨after, runs⟩, fun other run => ?_⟩
  obtain ⟨_, rfl⟩ := Prod.mk.inj (Except.ok.inj (runs.symm.trans run))
  exact ⟨holds, types⟩

theorem error {error : QueryError} (fails : (perform setting action).run before = .error error)
    (refused : action.Holds setting.schema → ∃ range ∈ action.range?,
      range.name ∈ before.ranges.map (·.name)) : Foretold setting action before := by
  refine ⟨fun holds new => ?_, fun after run => nomatch fails.symm.trans run⟩
  obtain ⟨range, declared, used⟩ := refused holds
  exact absurd used (new range declared)

/-- An action for a path that leads nowhere fails, and does not hold. -/
theorem unresolved {visible : Visible} {path : Path} {error : QueryError}
    (nowhere : resolve setting.schema visible path = .error error)
    (fails : (perform setting action).run before = .error error)
    (follows : action.Holds setting.schema →
      ∃ navigation, resolve setting.schema visible path = .ok navigation) :
    Foretold setting action before := by
  refine .error fails fun holds => ?_
  obtain ⟨navigation, leads⟩ := follows holds
  cases nowhere.symm.trans leads

end Foretold

theorem perform_foretold (action : Action) (before : Found) : Foretold setting action before := by
  cases action with
  | require name entity =>
    have required : (perform setting (.require name entity)).run before =
        if setting.schema.contains entity.value then .ok ((), before)
        else .error (.unresolved name.value "" (.unknownEntity entity.value) entity.span) := by
      rw [perform, requireEntity]
      cases setting.schema.contains entity.value <;> rfl
    by_cases known : setting.schema.contains entity.value = true
    · rw [if_pos known] at required
      exact .ok required known (List.append_nil _).symm
    · rw [if_neg known] at required
      exact .error required fun holds => absurd holds known
  | follow visible path =>
    cases leads : resolve setting.schema visible path with
    | error error =>
      refine .unresolved leads ?_ id
      rw [perform, StateT.run_bind, bindPath_error leads]
      rfl
    | ok navigation =>
      have runs : (perform setting (.follow visible path)).run before =
          .ok ((), before.keep path.key navigation) := by
        rw [perform, StateT.run_bind, bindPath_ok leads]
        rfl
      refine .ok runs ⟨navigation, leads⟩ ?_
      unfold Found.keep
      split <;> exact (List.append_nil _).symm
  | expectEntity visible path =>
    cases leads : resolve setting.schema visible path with
    | error error =>
      refine .unresolved leads ?_ (Exists.imp fun _ => And.left)
      rw [perform, leads]
      rfl
    | ok navigation =>
      have run := perform_expectEntity_run leads before
      cases ends : navigation.entity? with
      | none =>
        rw [ends] at run
        refine .error run ?_
        rintro ⟨_, led, present⟩
        rw [← Except.ok.inj (leads.symm.trans led), ends] at present
        cases present
      | some entity =>
        rw [ends] at run
        exact .ok run ⟨navigation, leads, ends ▸ rfl⟩ (List.append_nil _).symm
  | note visible parameter path =>
    cases leads : resolve setting.schema visible path with
    | error error =>
      refine .unresolved leads ?_ id
      rw [perform, noteType, leads]
      rfl
    | ok navigation =>
      refine .ok (perform_note_run leads before) ⟨navigation, leads⟩ ?_
      simp only [Action.type?, leads, Option.toList_map]
  | declare range =>
    have taken : before.ranges.any (·.name = range.name) = true ↔
        range.name ∈ before.ranges.map (·.name) := by
      simp [List.any_eq_true]
    by_cases used : before.ranges.any (·.name = range.name)
    · exact .error (perform_declare_taken used) fun _ => ⟨range, rfl, taken.mp used⟩
    · exact .ok (perform_declare_new used) trivial (List.append_nil _).symm

/-- Actions are performed if and only if each of them holds and all aliases that they declare are
different and new. -/
theorem performAll_iff (actions : List Action) {before : Found}
    (distinct : (before.ranges.map (·.name)).Nodup) :
    (∃ after, (performAll setting actions).run before = .ok ((), after)) ↔
      (∀ action ∈ actions, action.Holds setting.schema) ∧
        ((before.ranges ++ rangesOf actions).map (·.name)).Nodup := by
  constructor
  · rintro ⟨after, run⟩
    have performed := performAll_ok run
    refine ⟨fun action member => ?_, performed.ranges ▸ performed.distinct distinct⟩
    obtain ⟨reached, left, here⟩ := performAll_mem run action member
    exact ((perform_foretold action reached).holds left here).1
  · rintro ⟨each, new⟩
    induction actions generalizing before with
    | nil => exact ⟨before, rfl⟩
    | cons action rest ih =>
      obtain ⟨holds, others⟩ := List.forall_mem_cons.mp each
      rw [← List.singleton_append, rangesOf_append, ← List.append_assoc] at new
      have apart : ∀ range ∈ action.range?, range.name ∉ before.ranges.map (·.name) := by
        intro range declared used
        have listed : range ∈ rangesOf [action] :=
          List.mem_filterMap.mpr ⟨action, List.mem_cons_self, declared⟩
        have first : ((before.ranges ++ rangesOf [action]).map (·.name)).Nodup :=
          new.sublist ((List.sublist_append_left _ _).map _)
        rw [List.map_append, List.nodup_append] at first
        exact first.2.2 range.name used range.name (List.mem_map_of_mem listed) rfl
      obtain ⟨between, run⟩ := (perform_foretold action before).succeeds holds apart
      have performed := perform_ok run
      rw [← performed.ranges] at new
      obtain ⟨after, further⟩ := ih (performed.distinct distinct) others new
      exact ⟨after, by rw [performAll_cons, StateT.run_bind, run, ok_bind, further]⟩

theorem performAll_types {actions : List Action} {before after : Found}
    (run : (performAll setting actions).run before = .ok ((), after)) :
    after.types = before.types ++ typesOf setting.schema actions := by
  induction actions generalizing before with
  | nil =>
    cases run
    exact (List.append_nil _).symm
  | cons action rest ih =>
    rw [performAll_cons, StateT.run_bind] at run
    obtain ⟨⟨⟨⟩, between⟩, first, others⟩ := ok_of_bind run
    have noted : (action.type? setting.schema).toList = typesOf setting.schema [action] := by
      rw [typesOf, List.filterMap_cons, List.filterMap_nil]
      cases action.type? setting.schema <;> rfl
    rw [ih others, ((perform_foretold action before).holds _ first).2, noted, List.append_assoc,
      ← typesOf_append, List.singleton_append]

end Binding

namespace Model

open Binding

variable {schema : Schema} {query : Query} {parameters : ParameterMap} {applied : List String}
  {injected : List (String × String)} {model : Model}

/-- A tree can be looked up if and only if each of its actions holds and its aliases are different. -/
theorem ofTree_ok_iff :
    (∃ model, ofTree schema query parameters applied injected = .ok model) ↔
      (∀ action ∈ queryActions ⟨schema, injected⟩ query ⟨[], 0⟩, action.Holds schema) ∧
        query.allAliases.Nodup := by
  let setting : Binding.Setting := ⟨schema, injected⟩
  let start : Binding.Found := ⟨[], [], []⟩
  have performs : (∃ after, (performAll setting (queryActions setting query ⟨[], 0⟩)).run start =
      .ok ((), after)) ↔ _ := performAll_iff _ List.nodup_nil
  rw [List.nil_append, names_queryActions, ← bindQuery_eq] at performs
  rw [← performs]
  constructor
  · rintro ⟨model, result⟩
    obtain ⟨⟨⟨⟩, found⟩, run, _⟩ := ok_of_bind result
    exact ⟨found, run⟩
  · rintro ⟨found, run⟩
    exact ⟨_, by rw [ofTree, run]; rfl⟩

/-- Parameters get the types that are noted, the last one of each name. -/
theorem ofTree_parameters (result : ofTree schema query parameters applied injected = .ok model) :
    model.parameters = (typesOf schema (queryActions ⟨schema, injected⟩ query ⟨[], 0⟩)).foldl
      (fun parameters (name, type) => parameters.setType name type) parameters := by
  obtain ⟨⟨⟨⟩, found⟩, run, returned⟩ := ok_of_bind result
  rw [bindQuery_eq] at run
  rw [← Except.ok.inj returned, performAll_types run, List.nil_append]

theorem ofTree_applied (result : ofTree schema query parameters applied injected = .ok model) :
    model.applied = applied := by
  obtain ⟨_, _, returned⟩ := ok_of_bind result
  rw [← Except.ok.inj returned]

/-- The model knows what the paths lead to that are followed, and nothing else. -/
theorem ofTree_navigation_iff
    (result : ofTree schema query parameters applied injected = .ok model) {path : Path}
    {navigation : Navigation} :
    model.navigation? path = some navigation ↔ ∃ seen followed,
      .follow seen followed ∈ queryActions ⟨schema, injected⟩ query ⟨[], 0⟩ ∧
        followed.key = path.key ∧ resolve schema seen followed = .ok navigation := by
  constructor
  · intro known
    obtain ⟨found, performed, rfl⟩ := ofTree_performed result
    rcases performed.led _ (mem_of_lookup known) with none | ⟨seen, followed, member, key, leads⟩
    · cases none
    · exact ⟨seen, followed, member, key, leads⟩
  · rintro ⟨seen, followed, member, key, leads⟩
    obtain ⟨other, leads', known⟩ := navigation?_of_follow result member
    obtain rfl := Except.ok.inj (leads'.symm.trans leads)
    rw [← known, navigation?, navigation?, key]

end Model

end QueryGuard
