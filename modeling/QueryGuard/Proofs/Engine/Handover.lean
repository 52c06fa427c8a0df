import QueryGuard.Proofs.Engine.Serialization
import QueryGuard.Proofs.Reading.Layout
import QueryGuard.Proofs.Rewriting.Preservation
import QueryGuard.Proofs.Rewriting.Sustaining
/-!
What is handed on of a model, exactly: its text, and the parameters that the text mentions, those of the
caller first. If one has no value, the first of them in the text is named.
-/

set_option autoImplicit false

namespace QueryGuard

/-! ### What the caller supplied -/

namespace Model

/-- The models that a query becomes which is bound with the parameters, when criteria are applied to it
any number of times. -/
inductive BoundWith (parameters : ParameterMap) : Model → Prop where
  | bound {schema : Schema} {query : Query} {model : Model}
      (bind : Model.bind schema query parameters = .ok model) : BoundWith parameters model
  | constrained {catalog : Schema} {model next : Model} {registry : Registry} {scope : Scope}
      {security : SecurityContext} (before : BoundWith parameters model)
      (constrain : model.constrain catalog registry scope security = .ok next) :
      BoundWith parameters next

end Model

namespace ParameterMap

/-- The parameters are the first ones, and behind them others that the caller does not own. -/
def Continues (first parameters : ParameterMap) : Prop :=
  ∃ added, parameters.untyped = first.untyped ++ added ∧ ∀ entry ∈ added, entry.2.2 ≠ .caller

namespace Continues

variable {first between parameters : ParameterMap}

theorem of_untyped (same : parameters.untyped = first.untyped) : Continues first parameters :=
  ⟨[], by rw [same, List.append_nil], List.forall_mem_nil _⟩

theorem trans (start : Continues first between) (further : Continues between parameters) :
    Continues first parameters := by
  obtain ⟨added, split, others⟩ := start
  obtain ⟨more, split', others'⟩ := further
  refine ⟨added ++ more, ?_, List.forall_mem_append.mpr ⟨others, others'⟩⟩
  rw [split', split, List.append_assoc]

/-- The caller's parameters are the same, in the same order. -/
theorem filter_caller (continues : Continues first parameters) (keep : String × Value × Owner → Bool) :
    parameters.untyped.filter (fun entry => decide (entry.2.2 = .caller) && keep entry) =
      first.untyped.filter fun entry => decide (entry.2.2 = .caller) && keep entry := by
  obtain ⟨added, split, others⟩ := continues
  have none : added.filter (fun entry => decide (entry.2.2 = .caller) && keep entry) = [] := by
    rw [List.filter_eq_nil_iff]
    intro entry member
    simp [others entry member]
  rw [split, List.filter_append, none, List.append_nil]

end Continues

end ParameterMap

namespace Constraint

/-- A parameter that a criterion gets comes behind the others. -/
theorem supply_continues (setting : Setting) (first : ParameterMap) (criterion name : String)
    (value : Value) :
    (settling (fun progress => first.Continues progress.parameters) fun _ => True).of
      (supply setting criterion name value) fun _ => True := by
  apply (settling _ _).bind settling_get
  intro progress continues
  split
  · split
    · exact settling_throw trivial
    · exact (settling _ _).pure trivial
  · rename_i missing
    split
    · exact settling_throw trivial
    · refine settling_set (continues.trans ⟨[(name, value, .criterion criterion)], ?_, ?_⟩)
      · exact ParameterMap.untyped_insert (ParameterMap.not_mem_names missing) _
      · exact List.forall_mem_singleton.mpr nofun

theorem sustains_continues (setting : Setting) (first : ParameterMap) :
    Sustains setting (fun progress => first.Continues progress.parameters) fun _ => True where
  declares _ _ _ continues := continues
  supplies criterion _ _ _ _ _ parameter _ :=
    supply_continues setting first criterion.name parameter.1 parameter.2
  raised _ _ _ _ _ _ := trivial
  missing _ := trivial

end Constraint

namespace Model

/-- Applying criteria to any model leaves its parameters as they are, with their values, and adds none
for the caller. -/
theorem constrain_continues {catalog : Schema} {registry : Registry} {scope : Scope}
    {security : SecurityContext} {model next : Model}
    (constrain : model.constrain catalog registry scope security = .ok next) :
    model.parameters.Continues next.parameters := by
  have start : model.parameters.Continues model.progress.parameters := .of_untyped rfl
  rcases (constrain_sustains (Constraint.sustains_continues _ _) start).1 next constrain with
    rfl | ⟨query, progress, applied, continues, looked⟩
  · exact .of_untyped rfl
  · exact continues.trans (.of_untyped (ofTree_untyped looked))

theorem BoundWith.continues {parameters : ParameterMap} {model : Model}
    (bound : model.BoundWith parameters) : parameters.Continues model.parameters := by
  induction bound with
  | bound bind => exact .of_untyped (ofTree_untyped bind)
  | constrained _ constrain ih => exact ih.trans (constrain_continues constrain)

/-! ### What is handed on -/

variable {model : Model} {serialized : Serialized}

/-- The first marker of the text without a value is named. -/
theorem serialize_error {error : QueryError} (fails : model.serialize = .error error) :
    ∃ before missing after, model.query.markers = before ++ missing :: after ∧
      (∀ marker ∈ before, marker.value ∈ model.parameters.names) ∧
      missing.value ∉ model.parameters.names ∧
      error = .unboundParameter missing.value missing.span := by
  unfold serialize at fails
  dsimp only at fails
  split at fails
  · rename_i missing lacks
    obtain ⟨unknown, before, after, split, known⟩ := List.find?_eq_some_iff_append.mp lacks
    refine ⟨before, missing, after, split, fun marker member => ?_, ?_, (Except.error.inj fails).symm⟩
    · have present := known marker member
      rwa [Bool.not_not, ParameterMap.contains_iff] at present
    · rwa [Bool.not_eq_true', Bool.eq_false_iff, Ne, ParameterMap.contains_iff] at unknown
  · cases fails

/-- Of the parameters that are handed on, those of the caller come first; either have the order of the
model. -/
theorem entries_serialize (result : model.serialize = .ok serialized) :
    let marked := model.query.markers.map (·.value)
    serialized.parameters.entries =
      (model.parameters.entries.filter fun (name, binding) =>
        decide (binding.owner = .caller ∧ name ∈ marked)) ++
      model.parameters.entries.filter fun (name, binding) =>
        decide (binding.owner ≠ .caller ∧ name ∈ marked) := by
  intro marked
  obtain ⟨_, rfl⟩ := serialize_ok_iff.mp result
  change List.filter _ (List.filter _ _ ++ List.filter _ _) = _
  rw [List.filter_append, List.filter_filter, List.filter_filter]
  congr 1
  · refine List.filter_congr fun entry _ => ?_
    simp only [Bool.and_comm, Bool.decide_and, marked]
  · refine List.filter_congr fun entry _ => ?_
    simp only [Bool.and_comm, Bool.decide_and, decide_not, marked]

/-- The text is that of the model, and the parameters are those of the model that it mentions: each of
them once, the caller's first in the caller's order, and behind them the others in the order of the
model. -/
structure HandsOn (parameters : ParameterMap) (model : Model) (serialized : Serialized) : Prop where
  text : serialized.text = model.query.text
  distinct : serialized.parameters.names.Nodup
  names : ∀ name, name ∈ serialized.parameters.names ↔ name ∈ model.query.markers.map (·.value)
  bindings : ∀ name ∈ serialized.parameters.names,
    serialized.parameters.get? name = model.parameters.get? name
  order : ∃ callers others, serialized.parameters.entries = callers ++ others ∧
    (callers.map fun (name, binding) => (name, binding.value, binding.owner)) =
      parameters.untyped.filter (fun (name, _, owner) =>
        decide (owner = .caller ∧ name ∈ model.query.markers.map (·.value))) ∧
    others = model.parameters.entries.filter fun (name, binding) =>
      decide (binding.owner ≠ .caller ∧ name ∈ model.query.markers.map (·.value))

/-- A model is handed on exactly if it has all parameters that its query mentions. Then it is handed on
with these parameters and no others; otherwise the error names the first marker without a value, in the
order in which the markers stand in the text. -/
theorem serialize_exact {parameters : ParameterMap} (bound : model.BoundWith parameters) :
    ((∃ serialized, model.serialize = .ok serialized) ↔
      ∀ marker ∈ model.query.markers, marker.value ∈ model.parameters.names) ∧
    (∀ serialized, model.serialize = .ok serialized → HandsOn parameters model serialized) ∧
    (∀ error, model.serialize = .error error → ∃ before missing after,
      model.query.markers = before ++ missing :: after ∧
        (∀ marker ∈ before, marker.value ∈ model.parameters.names) ∧
        missing.value ∉ model.parameters.names ∧
        error = .unboundParameter missing.value missing.span) ∧
    LaidOut model.query.markers fun f => (model.query.mapMarkers f).print := by
  refine ⟨⟨fun ⟨_, result⟩ => (serialize_ok_iff.mp result).1, serialize_succeeds⟩, ?_,
    fun _ fails => serialize_error fails, model.query.laidOut⟩
  intro serialized result
  have among : ∀ name ∈ serialized.parameters.names,
      name ∈ model.query.markers.map (·.value) ∧
        serialized.parameters.get? name = model.parameters.get? name := by
    intro name member
    obtain ⟨⟨_, binding⟩, listed, rfl⟩ := List.mem_map.mp member
    obtain ⟨known, marked⟩ := (mem_serialize result).mp listed
    exact ⟨marked, (ParameterMap.get?_of_mem listed).trans (ParameterMap.get?_of_mem known).symm⟩
  refine ⟨text_serialize result, serialized.parameters.nodup,
    fun name => ⟨fun member => (among name member).1, mem_names_serialize result⟩,
    fun name member => (among name member).2, _, _, entries_serialize result, ?_, rfl⟩
  have callers := bound.continues.filter_caller fun entry =>
    decide (entry.1 ∈ model.query.markers.map (·.value))
  simp only [Bool.decide_and]
  rw [← callers, ParameterMap.untyped, List.filter_map]
  rfl

/-- The caller supplies parameters in another order than that of the text, and one that the text does not
mention; without them, the first in the text is missed. -/
theorem serialize_exact_shop :
    ∃ query bound model serialized bare,
      Query.parse "select c from Customer c where c.name = :name and exists (select o from Order o where o.customer = c and o.total > :low)"
        1 = .ok query ∧
      Model.bind .shop query (.ofList [("low", .int64 1), ("other", .null), ("name", .string "a")]) =
        .ok bound ∧
      bound.constrain .shop (.shop "owner") .standard .anonymous = .ok model ∧
      model.serialize = .ok serialized ∧
      serialized.parameters.names = ["low", "name", "criterion_owner"] ∧
      HandsOn (.ofList [("low", .int64 1), ("other", .null), ("name", .string "a")]) model serialized ∧
      Model.bind .shop query .empty = .ok bare ∧
      ∃ before missing after, bare.query.markers = before ++ missing :: after ∧
        (∀ marker ∈ before, marker.value ∈ bare.parameters.names) ∧
        bare.serialize = .error (.unboundParameter missing.value missing.span) ∧
        missing.value = "name" := by
  have runs : ((Query.parse "select c from Customer c where c.name = :name and exists (select o from Order o where o.customer = c and o.total > :low)"
      1).toOption.bind fun query =>
        (Model.bind .shop query (.ofList [("low", .int64 1), ("other", .null), ("name", .string "a")])).toOption.bind
          fun bound => (bound.constrain .shop (.shop "owner") .standard .anonymous).toOption.bind
            fun model => model.serialize.toOption.bind fun serialized =>
              (Model.bind .shop query .empty).toOption.map fun bare =>
                (serialized.parameters.names, bare.serialize.map fun _ => ())) =
      some (["low", "name", "criterion_owner"], .error (.unboundParameter "name" (.between 40 45))) := by
    decide +kernel
  obtain ⟨query, parsed, runs⟩ := Option.bind_eq_some_iff.mp runs
  obtain ⟨bound, bind, runs⟩ := Option.bind_eq_some_iff.mp runs
  obtain ⟨model, constrain, runs⟩ := Option.bind_eq_some_iff.mp runs
  obtain ⟨serialized, result, runs⟩ := Option.bind_eq_some_iff.mp runs
  obtain ⟨bare, bindBare, shown⟩ := Option.map_eq_some_iff.mp runs
  obtain ⟨names, missed⟩ := Prod.mk.inj shown
  have result := ok_of_toOption result
  obtain ⟨_, exactly, _, _⟩ :=
    serialize_exact ((BoundWith.bound (ok_of_toOption bind)).constrained (ok_of_toOption constrain))
  obtain ⟨_, _, first, _⟩ := serialize_exact (BoundWith.bound (ok_of_toOption bindBare))
  refine ⟨query, bound, model, serialized, bare, ok_of_toOption parsed, ok_of_toOption bind,
    ok_of_toOption constrain, result, names, exactly serialized result, ok_of_toOption bindBare, ?_⟩
  have fails := error_of_map missed
  obtain ⟨before, missing, after, split, known, _, same⟩ := first _ fails
  obtain ⟨named, _⟩ := QueryError.unboundParameter.inj same
  exact ⟨before, missing, after, split, known, same ▸ fails, named.symm⟩

end Model

end QueryGuard
