import QueryGuard.Proofs.Binding.Ranges
import QueryGuard.Proofs.Parameters
import QueryGuard.Proofs.Rewriting.Steps
/-!
The parameters that criteria add: they come behind those of the model, and a criterion that asks for
a name which is in use fails.
-/

set_option autoImplicit false

namespace QueryGuard

/-! ### What is in use -/

/-- A criterion may not add the parameter: the model has one of its name, or the text has a marker of
its name. The only exception is a parameter that the criterion supplied itself with the same value. -/
def Model.Refuses (model : Model) (criterion name : String) (value : Value) : Prop :=
  (name ∈ model.parameters.names ∨ name ∈ model.query.markers.map (·.value)) ∧
    ∀ kept, (name, kept, .criterion criterion) ∈ model.parameters.untyped → kept.same value = false

/-- The parameters are those of the model, with the values and owners that they have there, and
behind them others that the criteria supply, under names that the model does not use. -/
def Model.ExtendedBy (model : Model) (criteria : List Criterion) (parameters : ParameterMap) :
    Prop :=
  ∃ added, parameters.untyped = model.parameters.untyped ++ added ∧
    ∀ entry ∈ added, (∃ criterion ∈ criteria, entry.2.2 = .criterion criterion.name) ∧
      entry.1 ∉ model.parameters.names ∧ entry.1 ∉ model.query.markers.map (·.value)

/-- Criteria are applied to the range: roots always, joined ranges and those of queries inside
conditions only if the scope names them. -/
def Scope.Covers (scope : Scope) (range : BoundRange) : Prop :=
  (range.role = .root ∨ scope.joins = true) ∧ (range.depth = 0 ∨ scope.subqueries = true)

/-- A range of a query that criteria are applied to is its root, or a joined one or one of a query inside,
if the scope names these. -/
theorem Scope.Covers.cases {scope : Scope} {range : BoundRange} (covered : scope.Covers range)
    {binding : Binding.Setting} {query : Query} {around : Binding.Visible}
    (member : range ∈ Binding.rangesOf (Binding.queryActions binding query around)) :
    range.name = query.root.name.value ∨
      (scope.joins = true ∧ ∃ join ∈ query.joins, range.name = join.name.value) ∨
      (scope.subqueries = true ∧ ∃ inner ∈ query.subqueries,
        range ∈ Binding.rangesOf
          (Binding.queryActions binding inner (Binding.levelVisible binding around query).inside)) := by
  obtain ⟨applied, nests⟩ := covered
  rcases Binding.queryActions_cases member with root | ⟨joined, found⟩ | ⟨deep, found⟩
  · exact .inl root
  · exact .inr (.inl ⟨applied.resolve_left joined, found⟩)
  · exact .inr (.inr ⟨nests.resolve_left (Nat.ne_of_gt (Nat.zero_lt_of_lt deep)), found⟩)

namespace Model.ExtendedBy

variable {model : Model} {criteria : List Criterion} {parameters : ParameterMap}

theorem refl (model : Model) (criteria : List Criterion) :
    model.ExtendedBy criteria model.parameters :=
  ⟨[], (List.append_nil _).symm, fun _ member => nomatch member⟩

theorem names_subset (extended : model.ExtendedBy criteria parameters) :
    model.parameters.names ⊆ parameters.names := by
  obtain ⟨added, same, _⟩ := extended
  rw [← parameters.names_untyped, same, List.map_append, model.parameters.names_untyped]
  exact List.subset_append_left _ _

/-- A parameter that the criterion may add again is not refused. -/
theorem not_refuses_own (extended : model.ExtendedBy criteria parameters) {criterion : Criterion}
    {name : String} {value : Value} {binding : Binding}
    (found : parameters.get? name = some binding) (own : binding.owner = .criterion criterion.name)
    (same : binding.value.same value = true) : ¬ model.Refuses criterion.name name value := by
  rintro ⟨used, others⟩
  obtain ⟨added, split, apart⟩ := extended
  have listed := ParameterMap.mem_untyped found
  rw [split, own] at listed
  rcases List.mem_append.mp listed with old | new
  · have differs := others _ old
    rw [same] at differs
    cases differs
  · obtain ⟨_, unnamed, unmarked⟩ := apart _ new
    exact used.elim unnamed unmarked

/-- A criterion adds a parameter of a new name. -/
theorem insert (extended : model.ExtendedBy criteria parameters) {criterion : Criterion}
    (member : criterion ∈ criteria) {name : String} (new : name ∉ parameters.names)
    (unmarked : name ∉ model.query.markers.map (·.value)) (value : Value) :
    model.ExtendedBy criteria
      (parameters.insert name (.of (.criterion criterion.name) value)) := by
  have unnamed : name ∉ model.parameters.names := fun old => new (extended.names_subset old)
  obtain ⟨added, split, apart⟩ := extended
  refine ⟨added ++ [(name, value, .criterion criterion.name)], ?_, ?_⟩
  · rw [ParameterMap.untyped_insert new, split, List.append_assoc]
    rfl
  · refine List.forall_mem_append.mpr ⟨apart, List.forall_mem_singleton.mpr ?_⟩
    exact ⟨⟨criterion, member, rfl⟩, unnamed, unmarked⟩

end Model.ExtendedBy

namespace Constraint

/-! ### Steps that may fail -/

/-- What the steps ensure if they start where the invariant holds: they keep it, or they fail with
one of the errors. -/
def settling (invariant : Progress → Prop) (errors : QueryError → Prop) : Ensuring Constrain where
  of step good := (keeping invariant).of step good ∧
    ∀ before error, step.run before = .error error → invariant before → errors error
  pure := by
    intro α value good holds
    exact ⟨(keeping invariant).pure holds, fun _ _ fails => nomatch fails⟩
  bind := by
    intro α β step next good good' first rest
    refine ⟨(keeping invariant).bind first.1 fun value holds => (rest value holds).1, ?_⟩
    intro before error fails kept
    rw [StateT.run_bind] at fails
    cases run : step.run before with
    | error other =>
      rw [run] at fails
      obtain rfl := Except.error.inj fails
      exact first.2 before other run kept
    | ok reached =>
      rw [run] at fails
      obtain ⟨holds, kept⟩ := first.1 before reached.1 reached.2 run kept
      exact (rest reached.1 holds).2 reached.2 error fails kept

section

variable {invariant : Progress → Prop} {errors : QueryError → Prop} {α : Type} {good : α → Prop}

theorem settling_throw {error : QueryError} (among : errors error) :
    (settling invariant errors).of (throw error : Constrain α) good := by
  refine ⟨keeping_throw error, ?_⟩
  intro before other same _
  obtain rfl := Except.error.inj same
  exact among

theorem settling_get : (settling invariant errors).of (get : Constrain Progress) invariant :=
  ⟨keeping_get, fun _ _ fails => nomatch fails⟩

theorem settling_set {progress : Progress} (kept : invariant progress) :
    (settling invariant errors).of (set progress : Constrain Unit) fun _ => True :=
  ⟨keeping_set kept, fun _ _ fails => nomatch fails⟩

theorem settling_lift {result : Except QueryError α}
    (among : ∀ error, result = .error error → errors error) :
    (settling invariant errors).of (liftM result : Constrain α) fun value => result = .ok value := by
  refine ⟨keeping_lift result, ?_⟩
  intro before other same _
  cases result with
  | error error =>
    obtain rfl := Except.error.inj same
    exact among error rfl
  | ok value => cases same

end

/-! ### Copies -/

section

variable {invariant : Progress → Prop} {errors : QueryError → Prop} {criterion : String}
  (declares : ∀ (before : Progress) (query : Query), invariant before →
    invariant (before.declare criterion (chosenFor before query)))

include declares

/-- Aliases for an added query can always be chosen, and what this keeps for one level is kept. -/
theorem freshen_settling (depth : Nat) (query : Query) :
    (settling invariant errors).of (freshen criterion depth query) fun _ => True := by
  have level : ∀ (nested : Query → Constrain Query) (query : Query),
      (∀ inner, (settling invariant errors).of (nested inner) fun _ => True) →
        (settling invariant errors).of (freshenLevel nested criterion query) fun _ => True := by
    intro nested query inside
    have ensures : ∀ renamed : Query, (settling invariant errors).of (renamed.mapSubqueries nested)
        (renamed.Replaced fun _ _ => True) :=
      fun renamed => renamed.mapSubqueries_ensures (settling _ _) fun inner _ => inside inner
    refine ⟨fun before value after run holds => ?_, fun before error fails holds => ?_⟩
    · rw [freshenLevel_run] at run
      exact ⟨trivial, ((ensures _).1 _ value after run (declares before query holds)).2⟩
    · rw [freshenLevel_run] at fails
      exact (ensures _).2 _ error fails (declares before query holds)
  induction depth generalizing query with
  | zero => exact level _ query fun _ => (settling _ _).pure trivial
  | succ depth ih => exact level _ query ih

theorem copy_settling (predicate : Predicate) :
    (settling invariant errors).of (predicate.mapSubqueries fun query =>
      freshen criterion query.nesting query) fun _ => True := by
  have copies : (settling invariant errors).of (predicate.mapSubqueries fun query =>
      freshen criterion query.nesting query) (predicate.Replaced fun _ _ => True) :=
    predicate.mapSubqueries_ensures (settling _ _) fun query _ =>
      freshen_settling declares query.nesting query
  exact (settling _ _).mono copies fun _ _ => trivial

end

/-! ### Parameters -/

/-- The names are spared, and the parameters are those of the model with others behind them. -/
structure Progress.Respects (setting : Setting) (names : List String) (progress : Progress) : Prop
    extends Progress.Spares names progress where
  parameters : setting.model.ExtendedBy setting.criteria progress.parameters

variable {setting : Setting} {names : List String} {errors : QueryError → Prop}

/-- A criterion gets what it asks for, or fails because of it. -/
theorem supply_settles {criterion : Criterion} (member : criterion ∈ setting.criteria)
    (name : String) (value : Value)
    (conflict : ∀ owner, errors (.conflict criterion.name name owner)) :
    (settling (Progress.Respects setting names) errors).of
      (supply setting criterion.name name value)
      fun _ => ¬ setting.model.Refuses criterion.name name value := by
  apply (settling _ _).bind settling_get
  intro progress respects
  split
  · rename_i binding found
    split
    · exact settling_throw (conflict _)
    · rename_i accepted
      rw [not_or, not_not, Bool.not_eq_true', Bool.not_eq_false] at accepted
      exact (settling _ _).pure
        (respects.parameters.not_refuses_own found accepted.1 accepted.2)
  · rename_i missing
    have new := ParameterMap.not_mem_names missing
    split
    · exact settling_throw (conflict _)
    · rename_i other
      have unmarked : name ∉ setting.model.query.markers.map (·.value) := by
        intro marked
        obtain ⟨marker, among, rfl⟩ := List.mem_map.mp marked
        exact other (List.any_eq_true.mpr ⟨marker, among, beq_self_eq_true _⟩)
      let parameters := progress.parameters.insert name (.of (.criterion criterion.name) value)
      have extended : setting.model.ExtendedBy setting.criteria parameters :=
        respects.parameters.insert member new unmarked value
      have kept : Progress.Respects setting names { progress with parameters } :=
        ⟨⟨respects.taken, respects.apart⟩, extended⟩
      refine (settling _ _).mono (settling_set kept) fun _ _ refused => ?_
      exact refused.1.elim (fun old => new (respects.parameters.names_subset old)) unmarked

/-- Because of a range of the entity, the criterion asks for a parameter that it may not add. -/
inductive Overreaches (setting : Setting) (entity : Entity) (name : String)
    (criterion : Criterion) : Prop where
  | intro {contribution : Contribution} {parameter : String × Value}
      (applies : criterion.appliesTo entity = true)
      (result : criterion.contribute (contextOf setting entity name) = .ok (some contribution))
      (member : parameter ∈ contribution.parameters)
      (refused : setting.model.Refuses criterion.name parameter.1 parameter.2) :
      Overreaches setting entity name criterion

/-- A criterion does not ask for a parameter that it may not add, or it fails. -/
theorem part_settles (entity : Entity) (name : String) {criterion : Criterion}
    (member : criterion ∈ setting.criteria)
    (conflict : ∀ name owner, errors (.conflict criterion.name name owner))
    (raised : ∀ error, criterion.contribute (contextOf setting entity name) = .error error →
      errors error) :
    (settling (Progress.Respects setting names) errors).of (part setting entity name criterion)
      fun _ => ¬ Overreaches setting entity name criterion := by
  let settles := settling (Progress.Respects setting names) errors
  unfold part
  split
  · rename_i other
    refine settles.pure fun ⟨applies, _, _, _⟩ => ?_
    simp [applies] at other
  · apply settles.bind (settling_lift raised)
    intro contributed result
    split
    · refine settles.pure fun ⟨_, found, _, _⟩ => ?_
      cases found.symm.trans result
    · rename_i contribution
      apply settles.bind (settles.forM fun parameter _ =>
        supply_settles member parameter.1 parameter.2 fun owner => conflict parameter.1 owner)
      intro _ accepted
      have copies : settles.of (contribution.predicate.mapSubqueries fun query =>
          freshen criterion.name query.nesting query) fun _ => True :=
        copy_settling (fun before query respects =>
          ⟨respects.toSpares.declare criterion.name query, respects.parameters⟩) _
      refine settles.bind copies fun _ _ => settles.pure fun ⟨_, found, among, refused⟩ => ?_
      obtain rfl := Option.some.inj (Except.ok.inj (found.symm.trans result))
      exact accepted _ among refused

/-- Why criteria cannot be applied: one of them fails itself, or asks for a parameter that it may not
add. -/
inductive Blames (setting : Setting) : QueryError → Prop where
  | conflict {criterion : Criterion} (member : criterion ∈ setting.criteria) (name : String)
      (owner : Owner) : Blames setting (.conflict criterion.name name owner)
  | raised {criterion : Criterion} {entity : Entity} {name : String} {error : QueryError}
      (member : criterion ∈ setting.criteria)
      (fails : criterion.contribute (contextOf setting entity name) = .error error) :
      Blames setting error

/-- The names are those of ranges that the caller wrote, for entities that the catalog knows. -/
def Known (setting : Setting) (names : List String) : Prop :=
  ∀ name ∈ names, ∃ range entity, setting.model.range? name = some range ∧
    range.injectedBy = none ∧ setting.schema.entity? range.entity = some entity

/-- No criterion asks for a parameter that it may not add, because of the range. -/
def Accepted (setting : Setting) (name : String) : Prop :=
  ∀ range entity, setting.model.range? name = some range →
    setting.schema.entity? range.entity = some entity →
      ∀ criterion ∈ setting.criteria, ¬ Overreaches setting entity name criterion

theorem parts_settles (known : Known setting names) {name : String} (caller : name ∈ names) :
    (settling (Progress.Respects setting names) (Blames setting)).of (parts setting name)
      fun _ => Accepted setting name := by
  let settles := settling (Progress.Respects setting names) (Blames setting)
  obtain ⟨range, entity, found, written, ofRange⟩ := known name caller
  unfold parts
  simp only [found, written, ofRange, Option.isSome_none, Bool.false_eq_true, ↓reduceIte]
  have each : settles.of (setting.criteria.mapM (part setting entity name))
      (List.Forall₂ (fun criterion _ => ¬ Overreaches setting entity name criterion)
        setting.criteria) :=
    settles.mapM fun criterion member => part_settles entity name member
      (fun name owner => .conflict member name owner) fun error fails => .raised member fails
  refine settles.bind each fun added accepted => settles.pure ?_
  intro other known found' ofOther criterion member
  obtain rfl := Option.some.inj (found.symm.trans found')
  obtain rfl := Option.some.inj (ofRange.symm.trans ofOther)
  exact forall_mem_of_forall₂_left accepted criterion member

theorem joinParts_settles (known : Known setting names) {join : Join Predicate}
    (caller : join.name.value ∈ names) :
    (settling (Progress.Respects setting names) (Blames setting)).of
      (if setting.scope.joins then parts setting join.name.value else return [])
      fun _ => setting.scope.joins = true → Accepted setting join.name.value := by
  by_cases joins : setting.scope.joins
  · rw [if_pos joins]
    exact (settling _ _).mono (parts_settles known caller) fun _ accepted _ => accepted
  · rw [if_neg joins]
    exact (settling _ _).pure fun applied => absurd applied joins

/-- A level is accepted, and the queries inside it are as the given step leaves them. -/
theorem constrainLevel_settles (known : Known setting names) {nested : Query → Constrain Query}
    {Q : Query → Prop} {query : Query} (caller : query.allAliases ⊆ names)
    (inside : ∀ inner ∈ query.subqueries,
      (settling (Progress.Respects setting names) (Blames setting)).of (nested inner) fun _ =>
        Q inner) :
    (settling (Progress.Respects setting names) (Blames setting)).of
      (constrainLevel setting nested query) fun _ =>
        Accepted setting query.root.name.value ∧
          (setting.scope.joins = true →
            ∀ join ∈ query.joins, Accepted setting join.name.value) ∧
          (setting.scope.subqueries = true → ∀ inner ∈ query.subqueries, Q inner) := by
  have root := parts_settles known (caller query.root_mem_allAliases)
  have joined : ∀ join ∈ query.joins,
      (settling (Progress.Respects setting names) (Blames setting)).of _ _ :=
    fun join member => joinParts_settles known (caller (query.join_mem_allAliases member))
  have level := constrainLevel_of (R := fun inner _ => Q inner) (settling _ _) root joined inside
  refine (settling _ _).mono level ?_
  rintro _ ⟨_, _, _, ofRoot, ofJoins, replaced, _⟩
  refine ⟨ofRoot, fun applied => ?_, fun applied => ?_⟩
  · exact forall_mem_of_forall₂_left (ofJoins.imp fun _ _ holds => holds applied)
  · exact forall_mem_of_forall₂_left (replaced applied).subqueries

/-- All ranges of the query that criteria are applied to are accepted. -/
def AcceptedIn (setting : Setting) (query : Query) : Prop :=
  ∀ (binding : Binding.Setting) (around : Binding.Visible),
    ∀ range ∈ Binding.rangesOf (Binding.queryActions binding query around),
      setting.scope.Covers range → Accepted setting range.name

theorem AcceptedIn.of_level {query : Query} (root : Accepted setting query.root.name.value)
    (joined : setting.scope.joins = true → ∀ join ∈ query.joins, Accepted setting join.name.value)
    (inside : setting.scope.subqueries = true →
      ∀ inner ∈ query.subqueries, AcceptedIn setting inner) : AcceptedIn setting query := by
  intro binding around range member covered
  rcases covered.cases member with named | ⟨applied, join, among, named⟩ | ⟨applied, inner, among, found⟩
  · exact named ▸ root
  · exact named ▸ joined applied join among
  · exact inside applied inner among binding _ range found covered

/-- A query that the caller wrote is accepted with all ranges that criteria are applied to. -/
theorem constrainLevels_settles (known : Known setting names) (depth : Nat) (query : Query)
    (within : query.nesting ≤ depth) (caller : query.allAliases ⊆ names) :
    (settling (Progress.Respects setting names) (Blames setting)).of
      (constrainLevels setting depth query) fun _ => AcceptedIn setting query := by
  induction depth generalizing query with
  | zero =>
    refine (settling _ _).mono (constrainLevel_settles known caller fun inner member => ?_)
      fun _ ⟨root, joined, inside⟩ => .of_level root joined inside
    exact absurd (Query.nesting_lt member) (by omega)
  | succ depth ih =>
    refine (settling _ _).mono (constrainLevel_settles known caller fun inner member => ?_)
      fun _ ⟨root, joined, inside⟩ => .of_level root joined inside
    have within : inner.nesting ≤ depth := by
      have := Query.nesting_lt member
      omega
    have caller : inner.allAliases ⊆ names := fun name found =>
      caller (Query.allAliases_subset member found)
    apply (settling _ _).bind settling_get
    intro progress respects
    rw [if_neg (by simp [respects.toSpares.not_injected caller])]
    exact ih inner within caller

end Constraint

end QueryGuard
