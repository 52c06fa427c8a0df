import QueryGuard.Proofs.Renaming.Composing
import QueryGuard.Proofs.Rewriting.Preservation
import QueryGuard.Proofs.Rewriting.Rearranging
import QueryGuard.Proofs.Rewriting.Sustaining
/-!
Which type a parameter is declared with: that of a path which it is compared with, where the parameter is a
side of a comparison, or belongs to the list, the bounds or the pattern by which the path is tested. Where
the parameter is tested itself, by paths, it keeps the type of its value.
-/

set_option autoImplicit false

namespace QueryGuard

/-! ### Tests -/

namespace Test

/-- Two expressions are compared in a test: the sides of a comparison, or what is tested and an element, a
bound or the pattern by which it is. -/
inductive Compares : Test → Expr → Expr → Prop where
  | sides (left : Expr) (comparison : Comparison) (right : Expr) :
      Compares (.compare left comparison right) left right
  | item {tested item : Expr} {items : List Expr} (negated : Bool) (member : item ∈ items) :
      Compares (.inList tested items negated) tested item
  | parameter (tested : Expr) (parameter : Name) (negated : Bool) :
      Compares (.inParameter tested parameter negated) tested (.parameter parameter)
  | low (tested low high : Expr) (negated : Bool) : Compares (.between tested low high negated) tested low
  | high (tested low high : Expr) (negated : Bool) :
      Compares (.between tested low high negated) tested high
  | pattern (tested pattern : Expr) (escape : Option Name) (negated : Bool) :
      Compares (.like tested pattern escape negated) tested pattern
  | swap {test : Test} {first second : Expr} (compares : Compares test first second) :
      Compares test second first

/-- The first expression is tested by the second one: an element of a list, a bound or a pattern. -/
inductive TestedBy : Test → Expr → Expr → Prop where
  | item {tested item : Expr} {items : List Expr} (negated : Bool) (member : item ∈ items) :
      TestedBy (.inList tested items negated) tested item
  | low (tested low high : Expr) (negated : Bool) : TestedBy (.between tested low high negated) tested low
  | high (tested low high : Expr) (negated : Bool) :
      TestedBy (.between tested low high negated) tested high
  | pattern (tested pattern : Expr) (escape : Option Name) (negated : Bool) :
      TestedBy (.like tested pattern escape negated) tested pattern

/-- If the first expression is a parameter and the second one a path, the type of the path is noted for the
parameter. -/
def Notes (test : Test) (first second : Expr) : Prop := (first, second) ∈ test.compared

variable {test : Test} {first second : Expr}

theorem compares_of_mem (member : (first, second) ∈ test.compared) : test.Compares first second := by
  cases test with
  | compare left comparison right =>
    simp only [compared, List.mem_cons, Prod.mk.injEq, List.not_mem_nil, or_false] at member
    rcases member with ⟨rfl, rfl⟩ | ⟨rfl, rfl⟩
    · exact .swap (.sides _ _ _)
    · exact .sides _ _ _
  | inList tested items negated =>
    obtain ⟨item, among, same⟩ := List.mem_map.mp member
    obtain ⟨rfl, rfl⟩ := Prod.mk.inj same
    exact .swap (.item negated among)
  | inParameter tested parameter negated =>
    obtain ⟨rfl, rfl⟩ := Prod.mk.inj (List.mem_singleton.mp member)
    exact .swap (.parameter _ _ _)
  | between tested low high negated =>
    simp only [compared, List.mem_cons, Prod.mk.injEq, List.not_mem_nil, or_false] at member
    rcases member with ⟨rfl, rfl⟩ | ⟨rfl, rfl⟩
    · exact .swap (.low _ _ _ _)
    · exact .swap (.high _ _ _ _)
  | isNull tested negated => cases member
  | like tested pattern escape negated =>
    obtain ⟨rfl, rfl⟩ := Prod.mk.inj (List.mem_singleton.mp member)
    exact .swap (.pattern _ _ _ _)

theorem TestedBy.compares (tested : test.TestedBy first second) : test.Compares first second := by
  cases tested with
  | item negated member => exact .item negated member
  | low => exact .low _ _ _ _
  | high => exact .high _ _ _ _
  | pattern => exact .pattern _ _ _ _

/-- Of two expressions that are compared, each is listed with the other one, unless it is tested by it, or the
other one is a parameter that stands for a list. -/
theorem Compares.listed (compares : test.Compares first second) :
    ((first, second) ∈ test.compared ∨ test.TestedBy first second ∨
        ∃ parameter, second = .parameter parameter) ∧
      ((second, first) ∈ test.compared ∨ test.TestedBy second first ∨
        ∃ parameter, first = .parameter parameter) := by
  induction compares with
  | sides => simp [compared]
  | item negated member =>
    exact ⟨.inr (.inl (.item negated member)), .inl (List.mem_map_of_mem member)⟩
  | parameter => exact ⟨.inr (.inr ⟨_, rfl⟩), .inl List.mem_cons_self⟩
  | low => exact ⟨.inr (.inl (.low _ _ _ _)), .inl List.mem_cons_self⟩
  | high =>
    exact ⟨.inr (.inl (.high _ _ _ _)), .inl (List.mem_cons_of_mem _ List.mem_cons_self)⟩
  | pattern => exact ⟨.inr (.inl (.pattern _ _ _ _)), .inl List.mem_cons_self⟩
  | swap _ ih => exact ih.symm

/-- A path that a parameter is compared with is listed for it, unless the parameter is tested by the path. -/
theorem compares_iff {parameter : Name} {path : Path} :
    test.Compares (.parameter parameter) (.path path) ↔
      (.parameter parameter, .path path) ∈ test.compared ∨
        test.TestedBy (.parameter parameter) (.path path) := by
  constructor
  · intro compares
    rcases compares.listed.1 with listed | tested | ⟨_, same⟩
    · exact .inl listed
    · exact .inr tested
    · cases same
  · rintro (listed | tested)
    · exact compares_of_mem listed
    · exact tested.compares

theorem mem_exprs_of_compared {pair : Expr × Expr} (member : pair ∈ test.compared) :
    pair.2 ∈ test.exprs := by
  cases test with
  | compare left comparison right =>
    simp only [compared, List.mem_cons, List.not_mem_nil, or_false] at member
    rcases member with rfl | rfl <;> simp [exprs]
  | inList tested items negated =>
    obtain ⟨item, _, rfl⟩ := List.mem_map.mp member
    exact List.mem_cons_self
  | inParameter tested parameter negated =>
    obtain rfl := List.mem_singleton.mp member
    exact List.mem_cons_self
  | between tested low high negated =>
    simp only [compared, List.mem_cons, List.not_mem_nil, or_false] at member
    rcases member with rfl | rfl <;> exact List.mem_cons_self
  | isNull tested negated => cases member
  | like tested pattern escape negated =>
    obtain rfl := List.mem_singleton.mp member
    exact List.mem_cons_self

end Test

namespace Predicate

/-- The walk that lists tests. -/
def testWalk : PredicateFold (List Test) (List Test) where
  and := List.flatten
  or := List.flatten
  not := id
  group := id
  test := fun test => [test]
  inQuery := fun _ inner _ => inner
  existsIn := fun inner _ => inner
  query := fun query => query.conditions.flatten

/-- The tests of a condition, with those of the queries inside. -/
def tests : Predicate → List Test := fold testWalk

theorem tests_and (operands : List Predicate) :
    (Predicate.and operands).tests = operands.flatMap tests := by
  rw [tests, fold_and, List.flatMap_def]
  rfl

theorem tests_or (operands : List Predicate) :
    (Predicate.or operands).tests = operands.flatMap tests := by
  rw [tests, fold_or, List.flatMap_def]
  rfl

end Predicate

/-- The tests of all conditions of a query, with those of the queries inside. -/
def Query.tests : Query → List Test := Query.fold Predicate.testWalk

theorem Query.tests_eq (query : Query) : query.tests = query.conditions.flatMap Predicate.tests := by
  rw [tests, Query.fold_eq, List.flatMap_def, ← Select.conditions_map]
  rfl

theorem Query.tests_subset (query : Query) {condition : Predicate}
    (member : condition ∈ query.conditions) : condition.tests ⊆ query.tests := by
  rw [tests_eq]
  exact subset_flatMap member

/-! ### Types that are noted -/

namespace Binding

section

variable {setting : Setting} {visible seen : Visible} {marker : Name} {path : Path}

theorem note_mem_testActions_iff {test : Test} :
    .note seen marker path ∈ testActions visible test ↔
      seen = visible ∧ (.parameter marker, .path path) ∈ test.compared := by
  rw [testActions, List.mem_append, List.mem_flatMap, List.mem_flatMap]
  constructor
  · rintro (⟨expr, _, listed⟩ | ⟨⟨first, second⟩, among, listed⟩)
    · exact absurd listed (note_not_mem_exprActions expr)
    · unfold noteActions at listed
      split at listed
      · rename_i same
        obtain ⟨rfl, rfl, rfl⟩ := Action.note.inj (List.mem_singleton.mp listed)
        obtain ⟨rfl, rfl⟩ := Prod.mk.inj same
        exact ⟨rfl, among⟩
      · cases listed
  · rintro ⟨rfl, among⟩
    exact .inr ⟨_, among, List.mem_cons_self⟩

/-- The type is noted for one of the tests, together with all else that is done for it. -/
def NotedFor (seen : Visible) (marker : Name) (path : Path) (tests : List Test)
    (actions : List Action) : Prop :=
  ∃ test ∈ tests, .note seen marker path ∈ testActions seen test ∧ testActions seen test ⊆ actions

theorem NotedFor.mono {tests others : List Test} {actions more : List Action}
    (noted : NotedFor seen marker path tests actions) (listed : tests ⊆ others)
    (done : actions ⊆ more) : NotedFor seen marker path others more := by
  obtain ⟨test, member, here, among⟩ := noted
  exact ⟨test, listed member, here, List.Subset.trans among done⟩

theorem note_inside {query : Query} {around : Visible}
    (each : ∀ condition ∈ query.conditions, ∀ {visible},
      .note seen marker path ∈ conditionActions setting condition visible →
        NotedFor seen marker path condition.tests (conditionActions setting condition visible))
    (member : .note seen marker path ∈ queryActions setting query around) :
    NotedFor seen marker path query.tests (queryActions setting query around) := by
  rcases mem_queryActions.mp member with ofRanges | ⟨expr, _, ofExpr⟩ | ⟨condition, among, ofCondition⟩
  · exact absurd ofRanges (note_not_mem_rangeActions query)
  · exact absurd ofExpr (note_not_mem_exprActions expr)
  · exact (each condition among ofCondition).mono (query.tests_subset among)
      (conditionActions_subset_queryActions among around)

/-- Types are noted for tests only. -/
theorem note_tested {condition : Predicate}
    (member : .note seen marker path ∈ conditionActions setting condition visible) :
    NotedFor seen marker path condition.tests (conditionActions setting condition visible) := by
  induction condition using Predicate.induction generalizing visible with
  | and operands ih =>
    rw [conditionActions_and] at member
    obtain ⟨operand, among, listed⟩ := List.mem_flatMap.mp member
    rw [Predicate.tests_and]
    exact (ih operand among listed).mono (subset_flatMap among) (conditionActions_subset_and among _)
  | or operands ih =>
    rw [conditionActions_or] at member
    obtain ⟨operand, among, listed⟩ := List.mem_flatMap.mp member
    rw [Predicate.tests_or]
    exact (ih operand among listed).mono (subset_flatMap among) (conditionActions_subset_or among _)
  | not operand ih => exact ih member
  | group operand ih => exact ih member
  | test test =>
    obtain ⟨rfl, _⟩ := note_mem_testActions_iff.mp member
    exact ⟨test, List.mem_cons_self, member, List.Subset.refl _⟩
  | inQuery tested query negated ih =>
    rw [conditionActions_inQuery] at member ⊢
    rcases List.mem_append.mp member with listed | listed
    · exact absurd listed (note_not_mem_exprActions tested)
    · exact (note_inside ih listed).mono (List.Subset.refl _) (List.subset_append_right _ _)
  | existsIn query negated ih =>
    rw [conditionActions_existsIn] at member ⊢
    exact note_inside ih member

theorem tests_inside {query : Query} {test : Test}
    (each : ∀ condition ∈ query.conditions, test ∈ condition.tests → ∀ visible, ∃ seen,
      testActions seen test ⊆ conditionActions setting condition visible)
    (member : test ∈ query.tests) (around : Visible) :
    ∃ seen, testActions seen test ⊆ queryActions setting query around := by
  obtain ⟨condition, among, found⟩ := List.mem_flatMap.mp (query.tests_eq ▸ member)
  obtain ⟨seen, done⟩ := each condition among found (levelVisible setting around query)
  exact ⟨seen, List.Subset.trans done (conditionActions_subset_queryActions among around)⟩

/-- For each test all is done, with some aliases visible to it. -/
theorem tests_performed {condition : Predicate} {test : Test} (member : test ∈ condition.tests)
    (visible : Visible) :
    ∃ seen, testActions seen test ⊆ conditionActions setting condition visible := by
  induction condition using Predicate.induction generalizing visible with
  | and operands ih =>
    rw [Predicate.tests_and] at member
    obtain ⟨operand, among, found⟩ := List.mem_flatMap.mp member
    obtain ⟨seen, done⟩ := ih operand among found visible
    exact ⟨seen, List.Subset.trans done (conditionActions_subset_and among visible)⟩
  | or operands ih =>
    rw [Predicate.tests_or] at member
    obtain ⟨operand, among, found⟩ := List.mem_flatMap.mp member
    obtain ⟨seen, done⟩ := ih operand among found visible
    exact ⟨seen, List.Subset.trans done (conditionActions_subset_or among visible)⟩
  | not operand ih => exact ih member visible
  | group operand ih => exact ih member visible
  | test other =>
    obtain rfl := List.mem_singleton.mp member
    exact ⟨visible, List.Subset.refl _⟩
  | inQuery tested query negated ih =>
    obtain ⟨seen, done⟩ := tests_inside ih member visible.inside
    rw [conditionActions_inQuery]
    exact ⟨seen, List.Subset.trans done (List.subset_append_right _ _)⟩
  | existsIn query negated ih =>
    rw [conditionActions_existsIn]
    exact tests_inside ih member visible.inside

/-- What a type is noted for is followed. -/
theorem follow_of_note {query : Query} {around : Visible}
    (noted : .note seen marker path ∈ queryActions setting query around) :
    .follow seen path ∈ queryActions setting query around := by
  obtain ⟨test, _, here, done⟩ := note_inside (fun _ _ => note_tested) noted
  refine done (mem_testActions.mpr ⟨rfl, List.mem_flatMap.mpr ⟨.path path, ?_, List.mem_cons_self⟩⟩)
  exact Test.mem_exprs_of_compared (note_mem_testActions_iff.mp here).2

/-- Types are noted exactly as the tests of a query compare. -/
theorem note_mem_queryActions_iff {query : Query} {around : Visible} :
    (∃ seen, .note seen marker path ∈ queryActions setting query around) ↔
      ∃ test ∈ query.tests, (.parameter marker, .path path) ∈ test.compared := by
  constructor
  · rintro ⟨seen, noted⟩
    obtain ⟨test, member, here, _⟩ := note_inside (fun _ _ => note_tested) noted
    exact ⟨test, member, (note_mem_testActions_iff.mp here).2⟩
  · rintro ⟨test, member, compared⟩
    have placed : ∃ seen, testActions seen test ⊆ queryActions setting query around :=
      tests_inside (fun _ _ found => tests_performed found) member around
    obtain ⟨seen, done⟩ := placed
    exact ⟨seen, done (note_mem_testActions_iff.mpr ⟨rfl, compared⟩)⟩

end

end Binding

/-! ### Types of parameters -/

namespace Model

open Binding

/-- The type of the values that a path leads to, if it leads to values. -/
def typeOf? (model : Model) (path : Path) : Option ScalarType :=
  (model.navigation? path).bind (·.scalarType?)

/-- A test of the query relates a marker of the name to a path that leads to values of the type. -/
def Relates (model : Model) (related : Test → Expr → Expr → Prop) (name : String) (type : ScalarType) :
    Prop :=
  ∃ test ∈ model.query.tests, ∃ marker path, marker.value = name ∧
    related test (.parameter marker) (.path path) ∧ model.typeOf? path = some type

variable {schema : Schema} {query : Query} {parameters : ParameterMap} {applied : List String}
  {injected : List (String × String)} {model : Model}

theorem mem_typesOf_iff (result : ofTree schema query parameters applied injected = .ok model)
    {name : String} {type : ScalarType} :
    (name, type) ∈ typesOf schema (queryActions ⟨schema, injected⟩ query ⟨[], 0⟩) ↔
      model.Relates Test.Notes name type := by
  have leads : ∀ {seen marker path}, .note seen marker path ∈
      queryActions ⟨schema, injected⟩ query ⟨[], 0⟩ →
      (Action.note seen marker path).type? schema = (model.typeOf? path).map (marker.value, ·) := by
    intro seen marker path noted
    obtain ⟨navigation, leads, known⟩ := navigation?_of_follow result (follow_of_note noted)
    simp only [Action.type?, leads, typeOf?, known, Option.bind_some]
  rw [Relates, ofTree_query result]
  constructor
  · intro member
    obtain ⟨action, among, same⟩ := List.mem_filterMap.mp member
    cases action with
    | note seen marker path =>
      rw [leads among] at same
      obtain ⟨other, typed, same⟩ := Option.map_eq_some_iff.mp same
      obtain ⟨rfl, rfl⟩ := Prod.mk.inj same
      obtain ⟨test, listed, compared⟩ := note_mem_queryActions_iff.mp ⟨seen, among⟩
      exact ⟨test, listed, marker, path, rfl, compared, typed⟩
    | require => cases same
    | follow => cases same
    | expectEntity => cases same
    | declare => cases same
  · rintro ⟨test, listed, marker, path, rfl, compared, typed⟩
    obtain ⟨seen, among⟩ := note_mem_queryActions_iff.mpr ⟨test, listed, compared⟩
    exact List.mem_filterMap.mpr ⟨_, among, by rw [leads among, typed, Option.map_some]⟩

/-- A parameter for which types are noted gets one of them; any other is as it was supplied. -/
theorem ofTree_types (result : ofTree schema query parameters applied injected = .ok model) :
    ∀ entry ∈ model.parameters.entries,
      (∃ type, model.Relates Test.Notes entry.1 type ∧ entry.2.declaredType = some type) ∨
        (∀ type, ¬ model.Relates Test.Notes entry.1 type) ∧ entry ∈ parameters.entries := by
  intro entry member
  rw [ofTree_parameters result, ParameterMap.entries_setTypes] at member
  obtain ⟨⟨name, binding⟩, supplied, rfl⟩ := List.mem_map.mp member
  cases last : (typesOf schema (queryActions ⟨schema, injected⟩ query ⟨[], 0⟩)).reverse.lookup name with
  | some type =>
    refine .inl ⟨type, (mem_typesOf_iff result).mp ?_, ?_⟩
    · exact List.mem_reverse.mp (mem_of_lookup last)
    · simp only [last, Option.some_or]
  | none =>
    refine .inr ⟨fun type noted => ?_, ?_⟩
    · have listed := List.mem_reverse.mpr ((mem_typesOf_iff result).mpr noted)
      have absent := List.lookup_eq_none_iff.mp last _ listed
      simp at absent
    · simpa only [last, Option.none_or] using supplied

end Model

/-- The type is that of the value itself. -/
def Binding.OwnType (binding : Binding) : Prop := binding.declaredType = binding.value.scalarType?

namespace ParameterMap

theorem mem_insertEntry {name : String} {binding : Binding} {entries : List (String × Binding)}
    {entry : String × Binding} (member : entry ∈ insertEntry name binding entries) :
    entry = (name, binding) ∨ entry ∈ entries := by
  induction entries with
  | nil => exact .inl (List.mem_singleton.mp member)
  | cons kept rest ih =>
    rw [insertEntry] at member
    split at member
    · rcases List.mem_cons.mp member with here | further
      · exact .inl here
      · exact .inr (List.mem_cons_of_mem _ further)
    · rcases List.mem_cons.mp member with here | further
      · exact .inr (here ▸ List.mem_cons_self)
      · exact (ih further).imp_right (List.mem_cons_of_mem _)

/-- The caller's values have their own types. -/
theorem ownType_ofList (values : List (String × Value)) :
    ∀ entry ∈ (ofList values).entries, entry.2.OwnType := by
  refine List.foldlRecOn (motive := fun parameters : ParameterMap => ∀ entry ∈ parameters.entries,
    entry.2.OwnType)
    values _ (List.forall_mem_nil _) ?_
  rintro parameters own ⟨name, value⟩ _ entry member
  rcases mem_insertEntry member with rfl | old
  · rfl
  · exact own entry old

end ParameterMap

namespace Constraint

variable {setting : Setting}

/-- A parameter that a criterion gets has the type of its value. -/
theorem supply_ownType {first : List (String × Binding)} (criterion name : String) (value : Value) :
    (settling (fun progress => ∀ entry ∈ progress.parameters.entries, entry ∈ first ∨ entry.2.OwnType)
      fun _ => True).of (supply setting criterion name value) fun _ => True := by
  apply (settling _ _).bind settling_get
  intro progress each
  split
  · split
    · exact settling_throw trivial
    · exact (settling _ _).pure trivial
  · split
    · exact settling_throw trivial
    · refine settling_set fun entry member => ?_
      rcases ParameterMap.mem_insertEntry member with rfl | old
      · exact .inr rfl
      · exact each entry old

theorem sustains_ownType (first : List (String × Binding)) :
    Sustains setting (fun progress => ∀ entry ∈ progress.parameters.entries,
      entry ∈ first ∨ entry.2.OwnType) fun _ => True where
  declares _ _ _ each := each
  supplies criterion _ _ _ _ _ parameter _ := supply_ownType criterion.name parameter.1 parameter.2
  raised _ _ _ _ _ _ := trivial
  missing _ := trivial

end Constraint

namespace Model

variable {schema : Schema} {query : Query} {parameters : ParameterMap} {registry : Registry}
  {scope : Scope} {security : SecurityContext} {bound model : Model}

/-- The binding has the type of a path to which a marker of the name is related, or that of its value if
there is none. -/
def TypedBy (model : Model) (related : Test → Expr → Expr → Prop) (name : String) (binding : Binding) :
    Prop :=
  (∃ type, model.Relates related name type ∧ binding.declaredType = some type) ∨
    (∀ type, ¬ model.Relates related name type) ∧ binding.OwnType

theorem relates_compares_iff {name : String} {type : ScalarType} :
    model.Relates Test.Compares name type ↔
      model.Relates Test.Notes name type ∨ model.Relates Test.TestedBy name type := by
  constructor
  · rintro ⟨test, member, marker, path, named, compares, typed⟩
    rcases Test.compares_iff.mp compares with listed | tested
    · exact .inl ⟨test, member, marker, path, named, listed, typed⟩
    · exact .inr ⟨test, member, marker, path, named, tested, typed⟩
  · rintro (⟨test, member, marker, path, named, listed, typed⟩ |
      ⟨test, member, marker, path, named, tested, typed⟩)
    · exact ⟨test, member, marker, path, named, Test.compares_of_mem listed, typed⟩
    · exact ⟨test, member, marker, path, named, tested.compares, typed⟩

/-- What a parameter is compared with counts for its type, unless it is only tested by paths itself, and its
value does not happen to be of the type of one of these. -/
theorem TypedBy.compares_iff {name : String} {binding : Binding}
    (typed : model.TypedBy Test.Notes name binding) :
    ¬ model.TypedBy Test.Compares name binding ↔
      (∃ type, model.Relates Test.TestedBy name type) ∧ (∀ type, ¬ model.Relates Test.Notes name type) ∧
        ∀ type, model.Relates Test.TestedBy name type → binding.value.scalarType? ≠ some type := by
  constructor
  · intro fails
    rcases typed with ⟨type, noted, declared⟩ | ⟨none, own⟩
    · exact absurd (.inl ⟨type, relates_compares_iff.mpr (.inl noted), declared⟩) fails
    · have compared : ∃ type, model.Relates Test.Compares name type := by
        by_contra never
        exact fails (.inr ⟨not_exists.mp never, own⟩)
      refine ⟨compared.imp fun type related =>
        (relates_compares_iff.mp related).resolve_left (none type), none, fun type tested same => ?_⟩
      exact fails (.inl ⟨type, relates_compares_iff.mpr (.inr tested), own.trans same⟩)
  · rintro ⟨⟨type, tested⟩, none, other⟩ follows
    have own : binding.OwnType := by
      rcases typed with ⟨type, noted, _⟩ | ⟨_, own⟩
      · exact absurd noted (none type)
      · exact own
    rcases follows with ⟨type', related, declared⟩ | ⟨never, _⟩
    · have tested' := (relates_compares_iff.mp related).resolve_left (none type')
      exact other type' tested' (own.symm.trans declared)
    · exact never type (relates_compares_iff.mpr (.inr tested))

/-- What criteria add to a bound query leaves the types that were noted. -/
theorem constrain_relates (bind : Model.bind schema query parameters = .ok bound)
    (constrain : bound.constrain schema registry scope security = .ok model) {name : String}
    {type : ScalarType} (noted : bound.Relates Test.Notes name type) :
    model.Relates Test.Notes name type := by
  obtain ⟨supplied, applied, injected, result, _, among⟩ := constrain_extends bind constrain
  exact (mem_typesOf_iff result).mp
    ((among.filterMap _).subset ((mem_typesOf_iff (bind_ofTree bind)).mpr noted))

theorem constrain_typedBy (bind : Model.bind schema query parameters = .ok bound)
    (own : ∀ entry ∈ parameters.entries, entry.2.OwnType)
    (constrain : bound.constrain schema registry scope security = .ok model) :
    ∀ entry ∈ model.parameters.entries, model.TypedBy Test.Notes entry.1 entry.2 := by
  have start : ∀ entry ∈ bound.parameters.entries, bound.TypedBy Test.Notes entry.1 entry.2 :=
    fun entry member => (ofTree_types bind entry member).imp_right (And.imp_right (own entry))
  rcases (constrain_sustains (Constraint.sustains_ownType bound.parameters.entries)
    fun _ => .inl).1 model constrain with rfl | ⟨_, progress, applied, supplied, looked⟩
  · exact start
  · intro entry member
    refine (ofTree_types looked entry member).imp_right fun ⟨unnoted, among⟩ => ⟨unnoted, ?_⟩
    rcases supplied entry among with before | new
    · -- what is noted for the bound query is noted again, so nothing was noted before either
      rcases start entry before with ⟨type, noted, _⟩ | ⟨_, own⟩
      · exact absurd (constrain_relates bind constrain noted) (unnoted type)
      · exact own
    · exact new

/-- A parameter of a bound query, also behind criteria, has the type of a path whose type is noted for it, or
that of its value if there is none. It is not typed in this way by all paths that it is compared with exactly
if it is only tested by paths itself, and its value is not of the type of one of these. -/
theorem bind_typed (bind : Model.bind schema query parameters = .ok bound)
    (own : ∀ entry ∈ parameters.entries, entry.2.OwnType) :
    ∀ model, (model = bound ∨ ∃ registry scope security,
        bound.constrain schema registry scope security = .ok model) →
      ∀ entry ∈ model.parameters.entries,
        model.TypedBy Test.Notes entry.1 entry.2 ∧
        (¬ model.TypedBy Test.Compares entry.1 entry.2 ↔
          (∃ type, model.Relates Test.TestedBy entry.1 type) ∧
            (∀ type, ¬ model.Relates Test.Notes entry.1 type) ∧
            ∀ type, model.Relates Test.TestedBy entry.1 type →
              entry.2.value.scalarType? ≠ some type) := by
  intro model reached entry member
  have typed : model.TypedBy Test.Notes entry.1 entry.2 := by
    rcases reached with rfl | ⟨registry, scope, security, constrain⟩
    · exact (ofTree_types bind entry member).imp_right (And.imp_right (own entry))
    · exact constrain_typedBy bind own constrain entry member
  exact ⟨typed, typed.compares_iff⟩

/-- The total is of another type than both parameters. The one that is compared with it gets its type; the one
that is tested by it does not. -/
theorem bind_typed_shop :
    let total := Expr.ofPath "o" ["total"]
    let query := Query.ofEntity "Order" "o" (some (.and [.equality total (.ofParameter "price"),
      .test (.between (.ofParameter "limit") total (.ofString "9") false)]))
    ∃ bound,
      Model.bind .shop query (.ofList [("price", .int64 5), ("limit", .int64 7)]) = .ok bound ∧
      bound.parameters.entries.map (fun entry => (entry.1, entry.2.declaredType)) =
        [("price", some .decimal), ("limit", some .int64)] ∧
      ∃ entry ∈ bound.parameters.entries, entry.1 = "limit" ∧
        bound.Relates Test.Compares entry.1 .decimal ∧
        ¬ bound.TypedBy Test.Compares entry.1 entry.2 := by
  intro total query
  have runs : (Model.bind .shop query (.ofList [("price", .int64 5), ("limit", .int64 7)])).toOption.map
      (fun bound => (bound.parameters.entries.map fun entry => (entry.1, entry.2.declaredType),
        bound.typeOf? (.synthetic "o" ["total"]),
        bound.navigations.all fun entry => entry.2.scalarType? ≠ some .int64)) =
      some ([("price", some .decimal), ("limit", some .int64)], some .decimal, true) := by
    decide +kernel
  obtain ⟨bound, bind, shown⟩ := Option.map_eq_some_iff.mp runs
  have bind := ok_of_toOption bind
  obtain ⟨types, shown⟩ := Prod.mk.inj shown
  obtain ⟨leads, navigations⟩ := Prod.mk.inj shown
  -- no path has the type of the values, so the types tell whether one was noted
  have other : ∀ path, bound.typeOf? path ≠ some .int64 := by
    intro path leads
    obtain ⟨navigation, known, type⟩ := Option.bind_eq_some_iff.mp leads
    exact of_decide_eq_true (List.all_eq_true.mp navigations _ (mem_of_lookup known)) type
  have tested : bound.Relates Test.TestedBy "limit" .decimal := by
    refine ⟨.between (.ofParameter "limit") total (.ofString "9") false, ?_, .synthetic "limit",
      .synthetic "o" ["total"], rfl, .low _ _ _ _, leads⟩
    rw [(bind_ranges bind).1]
    exact List.mem_cons_of_mem _ List.mem_cons_self
  have limit : ("limit", some ScalarType.int64) ∈
      bound.parameters.entries.map fun entry => (entry.1, entry.2.declaredType) :=
    types ▸ List.mem_cons_of_mem _ List.mem_cons_self
  obtain ⟨⟨name, binding⟩, member, same⟩ := List.mem_map.mp limit
  obtain ⟨rfl, declared⟩ := Prod.mk.inj same
  obtain ⟨typed, wrong⟩ := bind_typed bind (ParameterMap.ownType_ofList _) bound (.inl rfl) _ member
  obtain ⟨unnoted, own⟩ : (∀ type, ¬ bound.Relates Test.Notes "limit" type) ∧ binding.OwnType := by
    refine typed.resolve_left ?_
    rintro ⟨type, ⟨_, _, _, path, _, _, leads⟩, known⟩
    exact other path (leads.trans (known.symm.trans declared))
  refine ⟨bound, bind, types, _, member, rfl, relates_compares_iff.mpr (.inr tested),
    wrong.mpr ⟨⟨_, tested⟩, unnoted, ?_⟩⟩
  rintro type ⟨_, _, _, path, _, _, leads⟩ same
  exact other path (leads.trans (same.symm.trans (own.symm.trans declared)))

end Model

end QueryGuard
