import QueryGuard.Criterion.Basic
/-!
Criteria in the order of their registration, under different names.
-/

set_option autoImplicit false

namespace QueryGuard

/-- The first name that is among the ones before it or among those seen. -/
def firstRepeated? (seen : List String) : List String → Option String
  | [] => none
  | name :: rest => if name ∈ seen then some name else firstRepeated? (name :: seen) rest

theorem nodup_of_firstRepeated?_eq_none {seen names : List String}
    (distinct : firstRepeated? seen names = none) :
    names.Nodup ∧ ∀ name ∈ names, name ∉ seen := by
  induction names generalizing seen with
  | nil => exact ⟨List.nodup_nil, by simp⟩
  | cons name rest ih =>
    simp only [firstRepeated?] at distinct
    split at distinct
    · contradiction
    · rename_i fresh
      obtain ⟨nodup, unseen⟩ := ih distinct
      refine ⟨List.nodup_cons.mpr ⟨fun found => ?_, nodup⟩, fun other found => ?_⟩
      · exact unseen name found (List.mem_cons_self)
      · rcases List.mem_cons.mp found with rfl | found
        · exact fresh
        · exact fun member => unseen other found (List.mem_cons_of_mem _ member)

/-- Criteria of different names. -/
structure Registry where
  criteria : List Criterion
  nodup : (criteria.map (·.name)).Nodup

namespace Registry

def empty : Registry := ⟨[], List.nodup_nil⟩

/-- The registry of the given criteria; the first name that occurs again is an error. -/
def ofList (criteria : List Criterion) : Except ConfigurationError Registry :=
  match repeated : firstRepeated? [] (criteria.map (·.name)) with
  | none => .ok ⟨criteria, (nodup_of_firstRepeated?_eq_none repeated).1⟩
  | some name => .error (.duplicateCriterion name)

def names (registry : Registry) : List String := registry.criteria.map (·.name)

def find? (registry : Registry) (name : String) : Option Criterion :=
  registry.criteria.find? (·.name == name)

end Registry

end QueryGuard
