import QueryGuard.Proofs.Criterion.Standard
import QueryGuard.Proofs.Reading.NormalForm
import QueryGuard.Proofs.Siblings.References
/-!
Telling queries side by side apart keeps the form that the grammar knows, and how deeply queries are
nested: a parsed query can be printed and read back when its siblings have been told apart. The parameter
markers of a query are not aliases, so they are kept as well.
-/

set_option autoImplicit false

namespace QueryGuard

namespace Predicate

/-- Neither AND nor OR stands outside of parentheses. -/
def isUnary : Predicate → Bool
  | .and _ => false
  | .or _ => false
  | _ => true

/-- No OR stands outside of parentheses. -/
def isConjunctive : Predicate → Bool
  | .or _ => false
  | _ => true

/-- The condition has the form that the grammar knows: AND and OR have several operands, and none that
would have to be written in parentheses. -/
inductive Grammatical : Predicate → Prop where
  | and {operands : List Predicate} (several : 2 ≤ operands.length)
      (unary : ∀ operand ∈ operands, operand.isUnary = true)
      (each : ∀ operand ∈ operands, Grammatical operand) : Grammatical (.and operands)
  | or {operands : List Predicate} (several : 2 ≤ operands.length)
      (conjunctive : ∀ operand ∈ operands, operand.isConjunctive = true)
      (each : ∀ operand ∈ operands, Grammatical operand) : Grammatical (.or operands)
  | not {operand : Predicate} (unary : operand.isUnary = true) (inner : Grammatical operand) :
      Grammatical operand.not
  | group {operand : Predicate} (inner : Grammatical operand) : Grammatical operand.group
  | test (test : Test) : Grammatical (.test test)
  | inQuery {tested : Expr} {query : Query} {negated : Bool}
      (each : ∀ condition ∈ query.conditions, Grammatical condition) :
      Grammatical (.inQuery tested query negated)
  | existsIn {query : Query} {negated : Bool}
      (each : ∀ condition ∈ query.conditions, Grammatical condition) :
      Grammatical (.existsIn query negated)

theorem allOf_several {operands : List Predicate} (several : 2 ≤ operands.length) :
    allOf operands = .and operands := by
  rcases operands with _ | ⟨first, _ | ⟨second, rest⟩⟩
  · contradiction
  · simp at several
  · rfl

theorem anyOf_several {operands : List Predicate} (several : 2 ≤ operands.length) :
    anyOf operands = .or operands := by
  rcases operands with _ | ⟨first, _ | ⟨second, rest⟩⟩
  · contradiction
  · simp at several
  · rfl

theorem isConjunctive_of_isUnary {predicate : Predicate} (unary : predicate.isUnary = true) :
    predicate.isConjunctive = true := by
  cases predicate <;> first | rfl | cases unary

/-! ### What is read back as it is -/

/-- How a condition of the grammar's form is read back. -/
structure ReadBack (predicate : Predicate) : Prop where
  same : predicate.reread = predicate
  conjunctive : predicate.isConjunctive = true → predicate.reading.map allOf = [predicate]
  unary : predicate.isUnary = true → predicate.reading = [[predicate]]

theorem ReadBack.of_unary {predicate : Predicate} (reading : predicate.reading = [[predicate]]) :
    ReadBack predicate where
  same := by
    rw [reread, reading]
    rfl
  conjunctive _ := by
    rw [reading]
    rfl
  unary _ := reading

theorem Grammatical.readBack {predicate : Predicate} (grammatical : predicate.Grammatical) :
    ReadBack predicate := by
  induction grammatical with
  | @and operands several unary each ih =>
    have reading : (Predicate.and operands).reading = [operands] := by
      have nonempty : ¬ operands.isEmpty = true := by
        rw [List.isEmpty_iff]
        rintro rfl
        contradiction
      have own : operands.flatMap (fun operand => conjunctsOf operand.reading) =
          operands.flatMap fun operand => [operand] :=
        List.flatMap_congr fun operand member => by
          rw [(ih operand member).unary (unary operand member)]
          rfl
      rw [reading_and, if_neg nonempty, own, List.flatMap_singleton']
    have joined := allOf_several several
    refine ⟨?_, fun _ => ?_, fun unary => by cases unary⟩
    · rw [reread, reading]
      exact joined
    · rw [reading, List.map_singleton, joined]
  | @or operands several conjunctive each ih =>
    have reading : (Predicate.or operands).reading.map allOf = operands := by
      have nonempty : ¬ operands.isEmpty = true := by
        rw [List.isEmpty_iff]
        rintro rfl
        contradiction
      have own : operands.flatMap (fun operand => operand.reading.map allOf) =
          operands.flatMap fun operand => [operand] :=
        List.flatMap_congr fun operand member =>
          (ih operand member).conjunctive (conjunctive operand member)
      rw [reading_or, if_neg nonempty, List.map_flatMap, own, List.flatMap_singleton']
    refine ⟨?_, (fun conjunctive => by cases conjunctive), fun unary => by cases unary⟩
    rw [reread, ofDisjuncts, reading, anyOf_several several]
  | @not operand unary inner ih =>
    apply ReadBack.of_unary
    rw [reading_not, ih.unary unary]
    rfl
  | @group operand inner ih =>
    apply ReadBack.of_unary
    rw [reading_group, ih.same]
  | test test => exact .of_unary rfl
  | @inQuery tested query negated each ih =>
    apply ReadBack.of_unary
    rw [reading_inQuery, Query.reread, Select.map_eq_self fun condition member => (ih condition member).same]
  | @existsIn query negated each ih =>
    apply ReadBack.of_unary
    rw [reading_existsIn, Query.reread, Select.map_eq_self fun condition member => (ih condition member).same]

/-! ### What is read back has the form -/

/-- The operands are of the grammar's form, and can be joined without parentheses. -/
def AllUnary (operands : List Predicate) : Prop :=
  ∀ operand ∈ operands, operand.isUnary = true ∧ operand.Grammatical

theorem AllUnary.allOf {operands : List Predicate} (each : AllUnary operands)
    (nonempty : operands ≠ []) :
    (allOf operands).isConjunctive = true ∧ (Predicate.allOf operands).Grammatical := by
  rcases operands with _ | ⟨first, _ | ⟨second, rest⟩⟩
  · contradiction
  · obtain ⟨unary, grammatical⟩ := each first List.mem_cons_self
    exact ⟨isConjunctive_of_isUnary unary, grammatical⟩
  · exact ⟨rfl, .and (Nat.le_add_left 2 _) (fun operand member => (each operand member).1)
      fun operand member => (each operand member).2⟩

/-- A disjunction of conjunctions that can be joined without parentheses. -/
structure WellRead (disjuncts : List (List Predicate)) : Prop where
  nonempty : disjuncts ≠ []
  nonempties : ∀ conjuncts ∈ disjuncts, conjuncts ≠ []
  unary : ∀ conjuncts ∈ disjuncts, AllUnary conjuncts

namespace WellRead

theorem single {only : Predicate} (unary : only.isUnary = true) (grammatical : only.Grammatical) :
    WellRead [[only]] where
  nonempty := List.cons_ne_nil _ _
  nonempties := by simp
  unary := by
    intro conjuncts member operand found
    rw [List.mem_singleton.mp member] at found
    rw [List.mem_singleton.mp found]
    exact ⟨unary, grammatical⟩

variable {disjuncts : List (List Predicate)}

theorem ofDisjuncts (wellRead : WellRead disjuncts) :
    (Predicate.ofDisjuncts disjuncts).Grammatical := by
  have joined : ∀ operand ∈ disjuncts.map Predicate.allOf,
      operand.isConjunctive = true ∧ operand.Grammatical := by
    intro operand member
    obtain ⟨conjuncts, among, rfl⟩ := List.mem_map.mp member
    exact (wellRead.unary conjuncts among).allOf (wellRead.nonempties conjuncts among)
  rw [Predicate.ofDisjuncts]
  rcases disjuncts with _ | ⟨first, _ | ⟨second, rest⟩⟩
  · exact absurd rfl wellRead.nonempty
  · exact (joined _ List.mem_cons_self).2
  · exact .or (Nat.le_add_left 2 _) (fun operand member => (joined operand member).1)
      fun operand member => (joined operand member).2

theorem conjunctsOf (wellRead : WellRead disjuncts) :
    AllUnary (Predicate.conjunctsOf disjuncts) := by
  have grouped := wellRead.ofDisjuncts
  unfold Predicate.conjunctsOf
  split
  · exact wellRead.unary _ List.mem_cons_self
  · intro operand found
    rw [List.mem_singleton.mp found]
    exact ⟨rfl, .group grouped⟩

theorem operandOf (wellRead : WellRead disjuncts) :
    (Predicate.operandOf disjuncts).isUnary = true ∧
      (Predicate.operandOf disjuncts).Grammatical := by
  have grouped := wellRead.ofDisjuncts
  unfold Predicate.operandOf
  split
  · exact wellRead.unary _ List.mem_cons_self _ List.mem_cons_self
  · exact ⟨rfl, .group grouped⟩

end WellRead

theorem wellRead_reading (predicate : Predicate) : WellRead predicate.reading := by
  have inside : ∀ query : Query,
      (∀ condition ∈ query.conditions, WellRead condition.reading) →
      ∀ condition ∈ query.reread.conditions, condition.Grammatical := by
    intro query each condition member
    rw [Query.reread, Select.conditions_map] at member
    obtain ⟨source, among, rfl⟩ := List.mem_map.mp member
    exact (each source among).ofDisjuncts
  induction predicate using Predicate.induction with
  | and operands ih =>
    refine ⟨(reading_ne_nil _).1, (reading_ne_nil _).2, ?_⟩
    rw [reading_and]
    split
    · exact (WellRead.single rfl (.test _)).unary
    · intro conjuncts member operand found
      rw [List.mem_singleton.mp member] at found
      obtain ⟨source, among, found⟩ := List.mem_flatMap.mp found
      exact (ih source among).conjunctsOf operand found
  | or operands ih =>
    refine ⟨(reading_ne_nil _).1, (reading_ne_nil _).2, ?_⟩
    rw [reading_or]
    split
    · exact (WellRead.single rfl (.test _)).unary
    · intro conjuncts member
      obtain ⟨source, among, found⟩ := List.mem_flatMap.mp member
      exact (ih source among).unary conjuncts found
  | not operand ih => exact .single rfl (.not ih.operandOf.1 ih.operandOf.2)
  | group operand ih => exact .single rfl (.group ih.ofDisjuncts)
  | test test => exact .single rfl (.test test)
  | inQuery tested query negated ih =>
    rw [reading_inQuery]
    exact .single rfl (.inQuery (inside query ih))
  | existsIn query negated ih =>
    rw [reading_existsIn]
    exact .single rfl (.existsIn (inside query ih))

/-! ### Shape -/

theorem grammatical_and_iff {operands : List Predicate} :
    (Predicate.and operands).Grammatical ↔ 2 ≤ operands.length ∧
      ∀ operand ∈ operands, operand.isUnary = true ∧ operand.Grammatical := by
  constructor
  · rintro (⟨several, unary, each⟩)
    exact ⟨several, fun operand member => ⟨unary operand member, each operand member⟩⟩
  · rintro ⟨several, each⟩
    exact .and several (fun operand member => (each operand member).1)
      fun operand member => (each operand member).2

theorem grammatical_or_iff {operands : List Predicate} :
    (Predicate.or operands).Grammatical ↔ 2 ≤ operands.length ∧
      ∀ operand ∈ operands, operand.isConjunctive = true ∧ operand.Grammatical := by
  constructor
  · intro grammatical
    cases grammatical with
    | or several conjunctive each =>
      exact ⟨several, fun operand member => ⟨conjunctive operand member, each operand member⟩⟩
  · rintro ⟨several, each⟩
    exact .or several (fun operand member => (each operand member).1)
      fun operand member => (each operand member).2

theorem grammatical_not_iff {operand : Predicate} :
    operand.not.Grammatical ↔ operand.isUnary = true ∧ operand.Grammatical := by
  constructor
  · intro grammatical
    cases grammatical with
    | not unary inner => exact ⟨unary, inner⟩
  · rintro ⟨unary, inner⟩
    exact .not unary inner

theorem grammatical_group_iff {operand : Predicate} :
    operand.group.Grammatical ↔ operand.Grammatical := by
  constructor
  · intro grammatical
    cases grammatical with
    | group inner => exact inner
  · exact .group

theorem grammatical_inQuery_iff {tested : Expr} {query : Query} {negated : Bool} :
    (Predicate.inQuery tested query negated).Grammatical ↔
      ∀ condition ∈ query.conditions, condition.Grammatical := by
  constructor
  · intro grammatical
    cases grammatical with
    | inQuery each => exact each
  · exact .inQuery

theorem grammatical_existsIn_iff {query : Query} {negated : Bool} :
    (Predicate.existsIn query negated).Grammatical ↔
      ∀ condition ∈ query.conditions, condition.Grammatical := by
  constructor
  · intro grammatical
    cases grammatical with
    | existsIn each => exact each
  · exact .existsIn

theorem isUnary_shape (predicate : Predicate) : predicate.shape.isUnary = predicate.isUnary := by
  cases predicate <;> rfl

theorem isConjunctive_shape (predicate : Predicate) :
    predicate.shape.isConjunctive = predicate.isConjunctive := by
  cases predicate <;> rfl

/-- Aliases do not matter for the form of a condition. -/
theorem grammatical_shape (predicate : Predicate) :
    predicate.shape.Grammatical ↔ predicate.Grammatical := by
  have inside : ∀ query : Query,
      (∀ condition ∈ query.conditions, condition.shape.Grammatical ↔ condition.Grammatical) →
      ((∀ condition ∈ query.shape.conditions, condition.Grammatical) ↔
        ∀ condition ∈ query.conditions, condition.Grammatical) := by
    intro query each
    rw [Query.conditions_shape, List.forall_mem_map]
    exact forall₂_congr each
  induction predicate using Predicate.induction with
  | and operands ih =>
    rw [shape_and, grammatical_and_iff, grammatical_and_iff, List.length_map, List.forall_mem_map]
    exact and_congr_right fun _ => forall₂_congr fun operand member =>
      and_congr (by rw [isUnary_shape]) (ih operand member)
  | or operands ih =>
    rw [shape_or, grammatical_or_iff, grammatical_or_iff, List.length_map, List.forall_mem_map]
    exact and_congr_right fun _ => forall₂_congr fun operand member =>
      and_congr (by rw [isConjunctive_shape]) (ih operand member)
  | not operand ih =>
    change operand.shape.not.Grammatical ↔ _
    rw [grammatical_not_iff, grammatical_not_iff, isUnary_shape]
    exact and_congr_right fun _ => ih
  | group operand ih =>
    change operand.shape.group.Grammatical ↔ _
    rw [grammatical_group_iff, grammatical_group_iff]
    exact ih
  | test test => exact ⟨fun _ => .test test, fun _ => .test _⟩
  | inQuery tested query negated ih =>
    rw [shape_inQuery, grammatical_inQuery_iff, grammatical_inQuery_iff, inside query ih]
  | existsIn query negated ih =>
    rw [shape_existsIn, grammatical_existsIn_iff, grammatical_existsIn_iff, inside query ih]

theorem nesting_shape (predicate : Predicate) : predicate.shape.nesting = predicate.nesting := by
  have inside : ∀ query : Query,
      (∀ condition ∈ query.conditions, condition.shape.nesting = condition.nesting) →
      query.shape.nesting = query.nesting := by
    intro query each
    rw [Query.nesting_eq, Query.nesting_eq, Query.conditions_shape, List.map_map]
    exact congrArg (List.foldl max 0) (List.map_congr_left each)
  have all : ∀ operands : List Predicate,
      (∀ operand ∈ operands, operand.shape.nesting = operand.nesting) →
      (operands.map shape).map nesting = operands.map nesting := by
    intro operands each
    rw [List.map_map]
    exact List.map_congr_left each
  induction predicate using Predicate.induction with
  | and operands ih => rw [shape_and, nesting_and, nesting_and, all operands ih]
  | or operands ih => rw [shape_or, nesting_or, nesting_or, all operands ih]
  | not operand ih => exact ih
  | group operand ih => exact ih
  | test test => rfl
  | inQuery tested query negated ih => exact congrArg Nat.succ (inside query ih)
  | existsIn query negated ih => exact congrArg Nat.succ (inside query ih)

end Predicate

namespace Query

theorem nesting_shape (query : Query) : query.shape.nesting = query.nesting := by
  rw [nesting_eq, nesting_eq, conditions_shape, List.map_map]
  exact congrArg (List.foldl max 0) (List.map_congr_left fun condition _ => condition.nesting_shape)

theorem nesting_separateSiblings (query : Query) :
    query.separateSiblings.nesting = query.nesting := by
  rw [← nesting_shape, shape_separateSiblings, nesting_shape]

/-- A query is read back as it is exactly if its conditions have the form that the grammar knows. -/
theorem reread_iff (query : Query) :
    query.reread = query ↔ ∀ condition ∈ query.conditions, condition.Grammatical := by
  constructor
  · intro same condition member
    rw [← same, reread, Select.conditions_map] at member
    obtain ⟨source, _, rfl⟩ := List.mem_map.mp member
    exact source.wellRead_reading.ofDisjuncts
  · intro each
    exact Select.map_eq_self fun condition member => (each condition member).readBack.same

theorem reread_shape_iff (query : Query) :
    (∀ condition ∈ query.shape.conditions, condition.Grammatical) ↔ query.reread = query := by
  rw [reread_iff, conditions_shape, List.forall_mem_map]
  exact forall₂_congr fun condition _ => condition.grammatical_shape

/-- A query that is read back as it is, still is when its siblings have been told apart. -/
theorem reread_separateSiblings {query : Query} (same : query.reread = query) :
    query.separateSiblings.reread = query.separateSiblings := by
  rw [← reread_shape_iff, shape_separateSiblings]
  exact query.reread_shape_iff.mpr same

end Query

/-! ### Markers -/

theorem Expr.markers_call (name : Name) (arguments : List Expr) (span : Span) :
    (Expr.call name arguments span).markers = arguments.flatMap markers :=
  filterMap_leaves_call _ name arguments span

theorem Expr.markers_mapPaths (f : Path → Path) (expr : Expr) :
    (expr.mapPaths f).markers = expr.markers := by
  rw [markers, markers, leaves_mapPaths, List.filterMap_map]
  refine congrArg (List.filterMap · expr.leaves) (funext fun leaf => ?_)
  cases leaf <;> rfl

theorem Test.markers_mapExprs (f : Path → Path) (test : Test) :
    (test.mapExprs (Expr.mapPaths f)).markers = test.markers := by
  have exprs : (test.mapExprs (Expr.mapPaths f)).exprs.flatMap Expr.markers =
      test.exprs.flatMap Expr.markers := by
    rw [exprs_mapExprs, List.flatMap_map, funext (Expr.markers_mapPaths f)]
  cases test with
  | inParameter tested parameter negated =>
    exact congrArg (· ++ [parameter]) (tested.markers_mapPaths f)
  | _ => exact exprs

theorem Select.markersFrom_blank (query : Select (List Name)) :
    query.blank.markersFrom = query.markersFrom := by
  simp only [markersFrom, blank, List.flatMap_map, Expr.markers_mapPaths]

theorem Query.markers_shape_of {query : Query}
    (each : ∀ condition ∈ query.conditions, condition.shape.markers = condition.markers) :
    query.shape.markers = query.markers := by
  have conditions : (query.map Predicate.shape).blank.map Predicate.markers =
      (query.map Predicate.markers).blank := by
    rw [← Select.map_congr each]
    simp only [Select.blank, Select.map, List.map_map, Option.map_map, Join.map, Function.comp_def]
  rw [shape_eq, markers, fold_eq, fold_eq]
  exact (congrArg Select.markersFrom conditions).trans (Select.markersFrom_blank _)

theorem Predicate.markers_shape (predicate : Predicate) :
    predicate.shape.markers = predicate.markers := by
  induction predicate using Predicate.induction with
  | and operands ih =>
    rw [shape_and, markers_and, markers_and, List.flatMap_map, List.flatMap_congr ih]
  | or operands ih =>
    rw [shape_or, markers_or, markers_or, List.flatMap_map, List.flatMap_congr ih]
  | not operand ih => exact ih
  | group operand ih => exact ih
  | test test => exact test.markers_mapExprs Path.blank
  | inQuery tested query negated ih =>
    exact congrArg₂ (· ++ ·) (tested.markers_mapPaths Path.blank) (Query.markers_shape_of ih)
  | existsIn query negated ih => exact Query.markers_shape_of ih

theorem Query.markers_shape (query : Query) : query.shape.markers = query.markers :=
  markers_shape_of fun condition _ => condition.markers_shape

theorem Query.markers_separateSiblings (query : Query) :
    query.separateSiblings.markers = query.markers := by
  rw [← markers_shape, shape_separateSiblings, markers_shape]

end QueryGuard
