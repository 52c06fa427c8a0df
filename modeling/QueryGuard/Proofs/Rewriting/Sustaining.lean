import QueryGuard.Proofs.Rewriting.Reachable
import QueryGuard.Proofs.Rewriting.Supplying
/-!
What is kept by adding a single parameter is kept by applying criteria to any model, also to one that
criteria were applied to before.
-/

set_option autoImplicit false

namespace QueryGuard

namespace Constraint

/-- The invariant is kept when aliases are chosen and when a criterion gets a parameter that it asks for; a
criterion that fails or does not get it fails with one of the errors. -/
structure Sustains (setting : Setting) (invariant : Progress → Prop) (errors : QueryError → Prop) :
    Prop where
  declares : ∀ (before : Progress) (criterion : String) (chosen : List (String × String)),
    invariant before → invariant (before.declare criterion chosen)
  supplies : ∀ criterion ∈ setting.criteria, ∀ (entity : Entity) (name : String)
    (contribution : Contribution),
    criterion.contribute (contextOf setting entity name) = .ok (some contribution) →
      ∀ parameter ∈ contribution.parameters, (settling invariant errors).of
        (supply setting criterion.name parameter.1 parameter.2) fun _ => True
  raised : ∀ criterion ∈ setting.criteria, ∀ (entity : Entity) (name : String) (error : QueryError),
    criterion.contribute (contextOf setting entity name) = .error error → errors error
  missing : ∀ entity : String, errors (.configuration (.missingEntity entity))

namespace Sustains

variable {setting : Setting} {invariant : Progress → Prop} {errors : QueryError → Prop}

theorem part (sustains : Sustains setting invariant errors) (entity : Entity) (name : String)
    {criterion : Criterion} (member : criterion ∈ setting.criteria) :
    (settling invariant errors).of (Constraint.part setting entity name criterion) fun _ => True := by
  let settles := settling invariant errors
  unfold Constraint.part
  split
  · exact settles.pure trivial
  · apply settles.bind (settling_lift (sustains.raised criterion member entity name))
    intro contributed result
    split
    · exact settles.pure trivial
    · rename_i contribution
      have supplied : settles.of (contribution.parameters.forM fun parameter =>
          supply setting criterion.name parameter.1 parameter.2) _ :=
        settles.forM (sustains.supplies criterion member entity name contribution result)
      have copies : settles.of (contribution.predicate.mapSubqueries fun query =>
          freshen criterion.name query.nesting query) fun _ => True :=
        copy_settling (fun before query => sustains.declares before criterion.name
          (chosenFor before query)) _
      exact settles.bind supplied fun _ _ => settles.bind copies fun _ _ => settles.pure trivial

theorem parts (sustains : Sustains setting invariant errors) (name : String) :
    (settling invariant errors).of (Constraint.parts setting name) fun _ => True := by
  let settles := settling invariant errors
  unfold Constraint.parts
  split
  · exact settles.pure trivial
  · split
    · exact settles.pure trivial
    · split
      · exact settling_throw (sustains.missing _)
      · rename_i entity _
        have each : settles.of (setting.criteria.mapM (Constraint.part setting entity name))
            (List.Forall₂ (fun _ _ => True) setting.criteria) :=
          settles.mapM fun criterion member => sustains.part entity name member
        exact settles.bind each fun _ _ => settles.pure trivial

theorem constrainLevel (sustains : Sustains setting invariant errors)
    {nested : Query → Constrain Query}
    (inside : ∀ inner, (settling invariant errors).of (nested inner) fun _ => True) (query : Query) :
    (settling invariant errors).of (Constraint.constrainLevel setting nested query) fun _ => True := by
  have joined : ∀ join ∈ query.joins, (settling invariant errors).of
      (if setting.scope.joins then Constraint.parts setting join.name.value else return [])
      fun _ => True := by
    intro join _
    split
    · exact sustains.parts join.name.value
    · exact (settling _ _).pure trivial
  have level := constrainLevel_of (R := fun _ _ => True) (settling invariant errors)
    (sustains.parts query.root.name.value) joined fun inner _ => inside inner
  exact (settling _ _).mono level fun _ _ => trivial

theorem constrainLevels (sustains : Sustains setting invariant errors) (depth : Nat)
    (query : Query) :
    (settling invariant errors).of (Constraint.constrainLevels setting depth query)
      fun _ => True := by
  induction depth generalizing query with
  | zero => exact sustains.constrainLevel (fun _ => (settling _ _).pure trivial) query
  | succ depth ih =>
    refine sustains.constrainLevel (fun inner => ?_) query
    apply (settling _ _).bind settling_get
    intro progress _
    split
    · exact (settling _ _).pure trivial
    · exact ih inner

end Sustains

end Constraint

namespace Model

open Constraint

variable {catalog : Schema} {registry : Registry} {scope : Scope} {security : SecurityContext}
  {model : Model} {invariant : Progress → Prop} {errors : QueryError → Prop}

/-- Criteria leave the model as it is, or they keep the invariant and the names of the new query are
looked up; otherwise they fail with one of the errors, or a name is not found. -/
theorem constrain_sustains
    (sustains : Sustains ⟨catalog, model.pending registry, scope, security, model⟩ invariant errors)
    (start : invariant model.progress) :
    (∀ next, model.constrain catalog registry scope security = .ok next → next = model ∨
      ∃ query progress applied, invariant progress ∧
        ofTree catalog query progress.parameters applied progress.injected = .ok next) ∧
    ∀ error, model.constrain catalog registry scope security = .error error → errors error ∨
      ∃ query progress applied, invariant progress ∧
        ofTree catalog query progress.parameters applied progress.injected = .error error := by
  by_cases none : model.pending registry = []
  · rw [constrain_nothing none]
    exact ⟨fun next same => .inl (Except.ok.inj same).symm, fun _ fails => nomatch fails⟩
  · obtain ⟨applied, runs⟩ := constrain_run none
    have settles := sustains.constrainLevels model.query.nesting model.query
    rw [runs]
    constructor
    · intro next result
      obtain ⟨⟨query, progress⟩, run, looked⟩ := ok_of_bind result
      exact .inr ⟨query, progress, applied, (settles.1 _ query progress run start).2, looked⟩
    · intro error result
      cases run : (constrainLevels ⟨catalog, model.pending registry, scope, security, model⟩
          model.query.nesting model.query).run model.progress with
      | error other =>
        rw [run] at result
        obtain rfl := Except.error.inj result
        exact .inl (settles.2 _ other run start)
      | ok reached =>
        rw [run] at result
        exact .inr ⟨reached.1, reached.2, applied, (settles.1 _ _ _ run start).2, result⟩

end Model

end QueryGuard
