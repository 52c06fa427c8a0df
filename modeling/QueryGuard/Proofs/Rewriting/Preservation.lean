import QueryGuard.Criterion.Tenant
import QueryGuard.Proofs.Binding.Entities
import QueryGuard.Proofs.Rewriting.Additions
import QueryGuard.Proofs.Rewriting.Supplying
/-!
Applying criteria leaves alone what the caller owns: the parameters, the ranges, and what the paths
lead to.
-/

set_option autoImplicit false

namespace QueryGuard

open Constraint

namespace Model

variable {schema : Schema} {query : Query} {parameters : ParameterMap} {registry : Registry}
  {scope : Scope} {security : SecurityContext} {bound model : Model}

/-! ### Bound queries -/

theorem bind_ofTree (bind : Model.bind schema query parameters = .ok bound) :
    ofTree schema bound.query parameters [] [] = .ok bound := by
  rw [(bind_ranges bind).1]
  exact bind

theorem bind_known (bind : Model.bind schema query parameters = .ok bound)
    (criteria : List Criterion) (scope : Scope) (security : SecurityContext) :
    Known ⟨schema, criteria, scope, security, bound⟩ bound.aliases := by
  intro name member
  obtain ⟨range, found, written⟩ := bind_range? bind name member
  obtain ⟨entity, known⟩ := ofTree_entities bind range (List.mem_of_find?_eq_some found)
  exact ⟨range, entity, found, written, known⟩

theorem bind_respects (bind : Model.bind schema query parameters = .ok bound)
    (criteria : List Criterion) (scope : Scope) (security : SecurityContext) :
    bound.progress.Respects ⟨schema, criteria, scope, security, bound⟩ bound.aliases :=
  ⟨bind_spares bind, .refl bound criteria⟩

/-- Applying criteria to a bound query respects what the caller owns, and fails only for what they
ask for. -/
theorem bind_settles (bind : Model.bind schema query parameters = .ok bound)
    (criteria : List Criterion) (scope : Scope) (security : SecurityContext) :
    (settling (Progress.Respects ⟨schema, criteria, scope, security, bound⟩ bound.aliases)
      (Blames ⟨schema, criteria, scope, security, bound⟩)).of
      (constrainLevels ⟨schema, criteria, scope, security, bound⟩ bound.query.nesting bound.query)
      fun _ => ∀ range ∈ bound.ranges, scope.Covers range →
        Accepted ⟨schema, criteria, scope, security, bound⟩ range.name := by
  have caller : bound.query.allAliases ⊆ bound.aliases :=
    (bind_ranges bind).2.2.1 ▸ List.Subset.refl _
  refine (settling _ _).mono (constrainLevels_settles (bind_known bind criteria scope security)
    bound.query.nesting bound.query (Nat.le_refl _) caller) fun _ accepted range member => ?_
  rw [ofTree_ranges (bind_ofTree bind)] at member
  exact accepted _ _ range member

theorem range?_of_mem (distinct : model.aliases.Nodup) {range : BoundRange}
    (member : range ∈ model.ranges) : model.range? range.name = some range := by
  cases found : model.range? range.name with
  | none =>
    have missing := List.find?_eq_none.mp found range member
    simp at missing
  | some other =>
    have named : other.name = range.name := by simpa using List.find?_some found
    rw [eq_of_name distinct (List.mem_of_find?_eq_some found) member named]

/-! ### What is left alone -/

theorem ofTree_untyped {applied : List String} {injected : List (String × String)}
    (result : ofTree schema query parameters applied injected = .ok model) :
    model.parameters.untyped = parameters.untyped := by
  obtain ⟨found, _, rfl⟩ := ofTree_performed result
  exact parameters.untyped_setTypes found.types

/-- A constrained model is looked up as the bound one is, and what criteria added besides; its
parameters are extended by theirs. -/
theorem constrain_extends (bind : Model.bind schema query parameters = .ok bound)
    (constrain : bound.constrain schema registry scope security = .ok model) :
    ∃ supplied applied injected,
      ofTree schema model.query supplied applied injected = .ok model ∧
        bound.ExtendedBy (bound.pending registry) supplied ∧
        (Binding.queryActions ⟨schema, []⟩ bound.query ⟨[], 0⟩).Sublist
          (Binding.queryActions ⟨schema, injected⟩ model.query ⟨[], 0⟩) := by
  have constrained := constrained_of_copies bind constrain (copies_copied bound)
  by_cases none : bound.pending registry = []
  · rw [constrain_nothing none] at constrain
    obtain rfl := Except.ok.inj constrain
    have same := ofTree_untyped bind
    refine ⟨parameters, [], [], bind_ofTree bind, ⟨[], ?_, by simp⟩, List.Sublist.refl _⟩
    rw [same, List.append_nil]
  · obtain ⟨applied, runs⟩ := constrain_run none
    rw [runs] at constrain
    obtain ⟨⟨result, progress⟩, run, rebound⟩ := ok_of_bind constrain
    obtain ⟨_, respects⟩ := (bind_settles bind (bound.pending registry) scope security).1
      bound.progress result progress run (bind_respects bind _ scope security)
    obtain rfl : model.query = result := ofTree_query rebound
    refine ⟨progress.parameters, applied, progress.injected, rebound, respects.parameters, ?_⟩
    apply constrained.queryActions_sublist
    intro name member
    have caller : name ∈ bound.aliases := (bind_ranges bind).2.2.1 ▸ member
    rw [respects.toSpares.lookup_eq_none caller]
    rfl

end Model

/-- Customers are seen by their tenant, which a parameter of the name stands for, and orders if they
were not deleted. -/
def Registry.shop (parameter : String) : Registry where
  criteria := [Criterion.tenant parameter, Criterion.softDelete]
  nodup := by
    change ["tenant", "soft-delete"].Nodup
    decide

end QueryGuard
