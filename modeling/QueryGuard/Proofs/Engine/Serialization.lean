import QueryGuard.Proofs.Engine.Guarded
import QueryGuard.Proofs.Parameters
/-!
The parameters of a guarded query: those of its model that the text mentions.
-/

set_option autoImplicit false

namespace QueryGuard

/-- The parameters of the given names, the caller's first. -/
def ParameterMap.mentioned (parameters : ParameterMap) (names : List String) : ParameterMap :=
  parameters.callerFirst.filter fun name _ => decide (name ∈ names)

theorem ParameterMap.contains_iff {parameters : ParameterMap} {name : String} :
    parameters.contains name = true ↔ name ∈ parameters.names := by
  rw [contains, Option.isSome_iff_ne_none]
  constructor
  · intro present
    obtain ⟨binding, found⟩ := Option.ne_none_iff_exists'.mp present
    exact List.mem_map_of_mem (mem_of_lookup found)
  · exact fun among missing => not_mem_names missing among

namespace Model

variable {model : Model} {serialized : Serialized}

/-- A model is handed on exactly if it has all parameters that its query mentions: the text of the
query with these parameters. -/
theorem serialize_ok_iff : model.serialize = .ok serialized ↔
    (∀ marker ∈ model.query.markers, marker.value ∈ model.parameters.names) ∧
      serialized =
        ⟨model.query.text, model.parameters.mentioned (model.query.markers.map (·.value))⟩ := by
  have occurs : ∀ name : String, (model.query.markers.any (·.value == name)) =
      decide (name ∈ model.query.markers.map (·.value)) := by
    intro name
    rw [Bool.eq_iff_iff, List.any_eq_true, decide_eq_true_iff, List.mem_map]
    simp only [beq_iff_eq]
  unfold serialize
  dsimp only
  split
  · rename_i missing lacks
    have unknown := List.find?_some lacks
    rw [Bool.not_eq_true', Bool.eq_false_iff, Ne, ParameterMap.contains_iff] at unknown
    constructor
    · intro result
      cases result
    · rintro ⟨supplied, _⟩
      exact absurd (supplied missing (List.mem_of_find?_eq_some lacks)) unknown
  · rename_i none
    have supplied : ∀ marker ∈ model.query.markers, marker.value ∈ model.parameters.names := by
      intro marker member
      have present := List.find?_eq_none.mp none marker member
      rwa [Bool.not_eq_true, Bool.not_eq_false', ParameterMap.contains_iff] at present
    simp only [occurs]
    constructor
    · intro result
      exact ⟨supplied, (Except.ok.inj result).symm⟩
    · rintro ⟨_, rfl⟩
      rfl

/-- The parameters that are handed on are those of the model that the query mentions. -/
theorem mem_serialize (result : model.serialize = .ok serialized) {entry : String × Binding} :
    entry ∈ serialized.parameters.entries ↔
      entry ∈ model.parameters.entries ∧ entry.1 ∈ model.query.markers.map (·.value) := by
  have ordered : entry ∈ model.parameters.callerFirst.entries ↔ entry ∈ model.parameters.entries :=
    (List.filter_append_perm _ model.parameters.entries).mem_iff
  obtain ⟨_, rfl⟩ := serialize_ok_iff.mp result
  rw [← ordered, ← decide_eq_true_iff (p := entry.1 ∈ _)]
  exact List.mem_filter

/-- All parameters that the query mentions are handed on. -/
theorem mem_names_serialize (result : model.serialize = .ok serialized) {name : String}
    (marked : name ∈ model.query.markers.map (·.value)) : name ∈ serialized.parameters.names := by
  obtain ⟨marker, member, rfl⟩ := List.mem_map.mp marked
  obtain ⟨entry, known, named⟩ := List.mem_map.mp ((serialize_ok_iff.mp result).1 marker member)
  rw [← named] at marked ⊢
  exact List.mem_map_of_mem ((mem_serialize result).mpr ⟨known, marked⟩)

/-- A parameter that the query mentions is handed on with its value and its owner. -/
theorem get?_serialize (result : model.serialize = .ok serialized) {name : String} {value : Value}
    {owner : Owner} (known : (name, value, owner) ∈ model.parameters.untyped)
    (marked : name ∈ model.query.markers.map (·.value)) :
    ∃ binding, serialized.parameters.get? name = some binding ∧ binding.value = value ∧
      binding.owner = owner := by
  obtain ⟨⟨other, binding⟩, among, same⟩ := List.mem_map.mp known
  obtain ⟨rfl, rfl, rfl⟩ := same
  exact ⟨binding, ParameterMap.get?_of_mem ((mem_serialize result).mpr ⟨among, marked⟩), rfl, rfl⟩

/-- A model can be handed on if it has all parameters that its query mentions. -/
theorem serialize_succeeds
    (supplied : ∀ marker ∈ model.query.markers, marker.value ∈ model.parameters.names) :
    ∃ serialized, model.serialize = .ok serialized :=
  ⟨_, serialize_ok_iff.mpr ⟨supplied, rfl⟩⟩

end Model

namespace Engine

variable {engine : Engine}

/-- A text is guarded by parsing it, binding the query, constraining it and handing it on. -/
theorem guard_ok {cache : Option ParseCache} (reachable : engine.Reachable cache) {source : String}
    {parameters : ParameterMap} {security : SecurityContext} {guarded : Guarded}
    (guards : (engine.guard source parameters security cache).1 = .ok guarded) :
    ∃ query bound, Query.parse source engine.settings.depth = .ok query ∧
      Model.bind engine.schema query parameters = .ok bound ∧
      bound.constrain engine.schema engine.registry engine.settings.scope security =
        .ok guarded.model ∧
      guarded.model.serialize = .ok ⟨guarded.text, guarded.parameters⟩ := by
  rw [guard_reachable reachable] at guards
  cases parsed : Query.parse source engine.settings.depth with
  | error error =>
    rw [parsed] at guards
    cases guards
  | ok query =>
    rw [parsed] at guards
    obtain ⟨bound, bind, guards⟩ := ok_of_bind guards
    obtain ⟨model, constrain, guards⟩ := ok_of_bind guards
    obtain ⟨serialized, serialize, returned⟩ := ok_of_bind guards
    obtain rfl := Except.ok.inj returned
    exact ⟨query, bound, rfl, bind, constrain, serialize⟩

theorem guard_of_ok {cache : Option ParseCache} (reachable : engine.Reachable cache) {source : String}
    {parameters : ParameterMap} {security : SecurityContext} {query : Query} {bound model : Model}
    {serialized : Serialized} (parsed : Query.parse source engine.settings.depth = .ok query)
    (bind : Model.bind engine.schema query parameters = .ok bound)
    (constrain : bound.constrain engine.schema engine.registry engine.settings.scope security =
      .ok model) (serialize : model.serialize = .ok serialized) :
    (engine.guard source parameters security cache).1 =
      .ok ⟨serialized.text, serialized.parameters, model⟩ := by
  rw [guard_reachable reachable, parsed]
  dsimp only
  rw [guardQuery, bind, Binding.ok_bind, constrain, Binding.ok_bind, serialize]
  rfl

/-- The text is that of the model, character for character. -/
theorem guard_text {cache : Option ParseCache} (reachable : engine.Reachable cache) {source : String}
    {parameters : ParameterMap} {security : SecurityContext} {guarded : Guarded} {text : String}
    (guards : (engine.guard source parameters security cache).1 = .ok guarded)
    (print : guarded.model.query.print = text.toList) : guarded.text = text := by
  obtain ⟨_, _, _, _, _, serialize⟩ := guard_ok reachable guards
  exact (Model.text_serialize serialize).trans (Query.text_eq_iff.mpr print)

end Engine

end QueryGuard
