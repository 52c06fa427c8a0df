import QueryGuard.Parameter.Value
/-!
Parameters by name, in the order they were added.
-/

set_option autoImplicit false

namespace QueryGuard

/-- Who supplied a parameter: the caller, or a criterion of the given name. -/
inductive Owner where
  | caller
  | criterion (name : String)
deriving DecidableEq, Repr

def Owner.text : Owner → String
  | caller => "the caller"
  | criterion name => "criterion '" ++ name ++ "'"

/-- The value of a parameter with its type and who supplied it. -/
structure Binding where
  value : Value
  declaredType : Option ScalarType
  owner : Owner
deriving Repr

/-- A value with the type that it has itself. -/
def Binding.of (owner : Owner) (value : Value) : Binding := ⟨value, value.scalarType?, owner⟩

/-- Bindings by name; a name occurs once. -/
structure ParameterMap where
  entries : List (String × Binding)
  nodup : (entries.map (·.1)).Nodup

namespace ParameterMap

def empty : ParameterMap := ⟨[], List.nodup_nil⟩

def names (parameters : ParameterMap) : List String := parameters.entries.map (·.1)

def get? (parameters : ParameterMap) (name : String) : Option Binding :=
  parameters.entries.lookup name

def contains (parameters : ParameterMap) (name : String) : Bool := (parameters.get? name).isSome

/-- Puts a binding in the place of one of its name, or else at the end. -/
def insertEntry (name : String) (binding : Binding) :
    List (String × Binding) → List (String × Binding)
  | [] => [(name, binding)]
  | (other, kept) :: rest =>
      if other = name then (name, binding) :: rest
      else (other, kept) :: insertEntry name binding rest

theorem names_insertEntry (name : String) (binding : Binding) (entries : List (String × Binding)) :
    (insertEntry name binding entries).map (·.1) =
      if name ∈ entries.map (·.1) then entries.map (·.1) else entries.map (·.1) ++ [name] := by
  induction entries with
  | nil => rfl
  | cons entry rest ih =>
    obtain ⟨other, kept⟩ := entry
    by_cases same : other = name
    · simp [insertEntry, same]
    · simp only [insertEntry, same, ↓reduceIte, List.map_cons, ih, List.mem_cons,
        Ne.symm same, false_or]
      split <;> rfl

theorem nodup_insertEntry (name : String) (binding : Binding) {entries : List (String × Binding)}
    (nodup : (entries.map (·.1)).Nodup) :
    ((insertEntry name binding entries).map (·.1)).Nodup := by
  rw [names_insertEntry]
  split
  · exact nodup
  · rename_i fresh
    refine List.nodup_append.mpr ⟨nodup, List.pairwise_singleton _ _, ?_⟩
    intro first member second only
    rw [List.mem_singleton.mp only]
    exact fun same => fresh (same ▸ member)

/-- Adds a binding, in the place of one of its name if there is one. -/
def insert (parameters : ParameterMap) (name : String) (binding : Binding) : ParameterMap :=
  ⟨insertEntry name binding parameters.entries, nodup_insertEntry name binding parameters.nodup⟩

/-- Adds a value that the caller supplies. -/
def withCaller (parameters : ParameterMap) (name : String) (value : Value) : ParameterMap :=
  parameters.insert name (.of .caller value)

/-- The values that the caller supplies, added in order. -/
def ofList (values : List (String × Value)) : ParameterMap :=
  values.foldl (fun parameters (name, value) => parameters.withCaller name value) empty

/-- Gives a parameter a type, if there is one of the name. -/
def setType (parameters : ParameterMap) (name : String) (type : ScalarType) : ParameterMap where
  entries := parameters.entries.map fun (other, binding) =>
    (other, if other = name then { binding with declaredType := some type } else binding)
  nodup := by
    simpa only [List.map_map, Function.comp_def] using parameters.nodup

/-- The parameters that fulfil a condition. -/
def filter (parameters : ParameterMap) (keep : String → Binding → Bool) : ParameterMap where
  entries := parameters.entries.filter fun (name, binding) => keep name binding
  nodup := parameters.nodup.sublist (List.filter_sublist.map _)

@[simp] theorem names_setType (parameters : ParameterMap) (name : String) (type : ScalarType) :
    (parameters.setType name type).names = parameters.names := by
  simp only [names, setType, List.map_map, Function.comp_def]

end ParameterMap

end QueryGuard
