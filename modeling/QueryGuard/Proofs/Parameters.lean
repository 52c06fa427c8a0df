import QueryGuard.Parameter.Map
/-!
Parameters without their types: whose they are and what they stand for. Looking up a query changes
types only, and what is added under a new name comes last.
-/

set_option autoImplicit false

namespace QueryGuard

theorem mem_of_lookup {α β : Type} [BEq α] [LawfulBEq α] {key : α} {value : β}
    {pairs : List (α × β)} (found : pairs.lookup key = some value) : (key, value) ∈ pairs := by
  obtain ⟨before, after, split, _⟩ := List.lookup_eq_some_iff.mp found
  rw [split]
  exact List.mem_append_right _ List.mem_cons_self

/-- A key that occurs once leads to its value. -/
theorem lookup_of_mem {α β : Type} [BEq α] [LawfulBEq α] {key : α} {value : β}
    {pairs : List (α × β)} (distinct : (pairs.map (·.1)).Nodup) (member : (key, value) ∈ pairs) :
    pairs.lookup key = some value := by
  obtain ⟨before, after, rfl⟩ := List.append_of_mem member
  refine List.lookup_eq_some_iff.mpr ⟨before, after, rfl, fun pair among => ?_⟩
  rw [List.map_append, List.nodup_append] at distinct
  have differs := distinct.2.2 pair.1 (List.mem_map_of_mem among) key List.mem_cons_self
  exact bne_iff_ne.mpr (Ne.symm differs)

namespace ParameterMap

theorem eq_of_entries {first second : ParameterMap} (same : first.entries = second.entries) :
    first = second := by
  cases first
  cases second
  cases same
  rfl

/-- The names of the parameters with their values and with those who supplied them. -/
def untyped (parameters : ParameterMap) : List (String × Value × Owner) :=
  parameters.entries.map fun (name, binding) => (name, binding.value, binding.owner)

theorem names_untyped (parameters : ParameterMap) :
    parameters.untyped.map (·.1) = parameters.names := by
  rw [untyped, List.map_map]
  rfl

theorem get?_of_mem {parameters : ParameterMap} {name : String} {binding : Binding}
    (member : (name, binding) ∈ parameters.entries) : parameters.get? name = some binding :=
  lookup_of_mem parameters.nodup member

theorem mem_untyped {parameters : ParameterMap} {name : String} {binding : Binding}
    (found : parameters.get? name = some binding) :
    (name, binding.value, binding.owner) ∈ parameters.untyped :=
  List.mem_map_of_mem (f := fun (name, binding) => (name, binding.value, binding.owner))
    (mem_of_lookup found)

theorem not_mem_names {parameters : ParameterMap} {name : String}
    (missing : parameters.get? name = none) : name ∉ parameters.names := by
  intro member
  obtain ⟨entry, among, rfl⟩ := List.mem_map.mp member
  have absent := List.lookup_eq_none_iff.mp missing entry among
  simp at absent

@[simp] theorem untyped_setType (parameters : ParameterMap) (name : String) (type : ScalarType) :
    (parameters.setType name type).untyped = parameters.untyped := by
  rw [untyped, untyped, setType, List.map_map]
  apply List.map_congr_left
  intro entry _
  simp only [Function.comp_apply]
  split
  · rfl
  · rfl

theorem untyped_setTypes (parameters : ParameterMap) (types : List (String × ScalarType)) :
    (types.foldl (fun parameters (name, type) => parameters.setType name type)
      parameters).untyped = parameters.untyped := by
  induction types generalizing parameters with
  | nil => rfl
  | cons first rest ih => rw [List.foldl_cons, ih, untyped_setType]

/-- A parameter gets the last type of its name. -/
theorem entries_setTypes (parameters : ParameterMap) (types : List (String × ScalarType)) :
    (types.foldl (fun parameters (name, type) => parameters.setType name type)
      parameters).entries = parameters.entries.map fun (name, binding) =>
        (name, { binding with
          declaredType := (types.reverse.lookup name).or binding.declaredType }) := by
  induction types generalizing parameters with
  | nil => exact (List.map_id _).symm
  | cons first rest ih =>
    obtain ⟨noted, type⟩ := first
    rw [List.foldl_cons, ih]
    change (parameters.entries.map _).map _ = _
    rw [List.map_map]
    refine List.map_congr_left fun (name, binding) _ => ?_
    simp only [Function.comp_apply, List.reverse_cons, List.lookup_append]
    by_cases same : name = noted
    · simp only [same, ↓reduceIte, List.lookup_cons_self, Option.or_assoc, Option.some_or]
    · simp only [same, ↓reduceIte, List.lookup_cons, List.lookup_nil, beq_false_of_ne same,
        Option.or_none]

theorem insertEntry_new {name : String} {entries : List (String × Binding)}
    (new : name ∉ entries.map (·.1)) (binding : Binding) :
    insertEntry name binding entries = entries ++ [(name, binding)] := by
  induction entries with
  | nil => rfl
  | cons entry rest ih =>
    rw [List.map_cons, List.mem_cons, not_or] at new
    rw [insertEntry, if_neg (Ne.symm new.1), ih new.2, List.cons_append]

/-- A parameter of a new name is added behind the others. -/
theorem untyped_insert {parameters : ParameterMap} {name : String}
    (new : name ∉ parameters.names) (binding : Binding) :
    (parameters.insert name binding).untyped =
      parameters.untyped ++ [(name, binding.value, binding.owner)] := by
  change (insertEntry name binding parameters.entries).map _ = _
  rw [insertEntry_new new, List.map_append]
  rfl

end ParameterMap

end QueryGuard
