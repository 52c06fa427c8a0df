import QueryGuard.Proofs.Reading.Queries
/-!
Every tree that can be written down is read back, as a tree of the form that the grammar knows:
nested conjunctions and disjunctions are flat, empty ones are comparisons, and parentheses that
had to be written are groups.
-/

set_option autoImplicit false

namespace QueryGuard

/-- The condition can be written down. No conjunction or disjunction has a single operand, and NOT
is not applied to EXISTS, to which it would belong. -/
inductive Predicate.Printable : Predicate → Prop where
  | and {operands : List Predicate} (several : operands.length ≠ 1)
      (each : ∀ operand ∈ operands, Printable operand) : Printable (.and operands)
  | or {operands : List Predicate} (several : operands.length ≠ 1)
      (each : ∀ operand ∈ operands, Printable operand) : Printable (.or operands)
  | not {operand : Predicate} (other : ∀ query, operand ≠ .existsIn query false)
      (inner : Printable operand) : Printable operand.not
  | group {operand : Predicate} (inner : Printable operand) : Printable operand.group
  | test {test : Test} (leaf : test.Printable) : Printable (.test test)
  | inQuery {tested : Expr} {query : Query} {negated : Bool} (expr : tested.Printable)
      (level : query.LevelPrintable) (each : ∀ condition ∈ query.conditions, Printable condition) :
      Printable (.inQuery tested query negated)
  | existsIn {query : Query} {negated : Bool} (level : query.LevelPrintable)
      (each : ∀ condition ∈ query.conditions, Printable condition) :
      Printable (.existsIn query negated)

/-- The query can be written down. -/
structure Query.Printable (query : Query) : Prop where
  level : query.LevelPrintable
  each : ∀ condition ∈ query.conditions, condition.Printable

/-- A query is written with the texts of its conditions. -/
theorem Query.print_eq (query : Query) : query.print = (query.map Predicate.print).print := by
  rw [Query.print, Query.fold_eq, printWalk]
  exact congrArg Select.print (Select.map_map _ _ query)

theorem Query.levelPrintable_ofEntity (entity name : String) (filter : Option Predicate) :
    (Query.ofEntity entity name filter).LevelPrintable where
  nonempty := List.cons_ne_nil _ _
  items := by
    intro item member
    rw [List.mem_singleton.mp member]
    exact .path _
  joins := by
    intro join member
    cases member
  groupBy := by
    intro expr member
    cases member
  orderBy := by
    intro item member
    cases member
  limit := by
    intro count found
    cases found
  offset := by
    intro count found
    cases found

namespace Predicate

/-- The comparison of two integers for equality. -/
def sameIntegers (left right : Int64) : Predicate :=
  .equality (.literal (.synthetic (.integer left))) (.literal (.synthetic (.integer right)))

/-- The condition that is written for an empty conjunction. -/
def always : Predicate := sameIntegers 1 1

/-- The condition that is written for an empty disjunction. -/
def never : Predicate := sameIntegers 1 0

/-- What AND joins if one of its operands is read as the disjunction. -/
def conjunctsOf : List (List Predicate) → List Predicate
  | [conjuncts] => conjuncts
  | disjuncts => [.group (ofDisjuncts disjuncts)]

/-- What NOT applies to if its operand is read as the disjunction. -/
def operandOf : List (List Predicate) → Predicate
  | [[operand]] => operand
  | disjuncts => .group (ofDisjuncts disjuncts)

/-- The walk that computes how conditions are read. -/
def readingWalk : PredicateFold (List (List Predicate)) Query where
  and := fun operands =>
    if operands.isEmpty then [[always]] else [operands.flatMap conjunctsOf]
  or := fun operands => if operands.isEmpty then [[never]] else operands.flatten
  not := fun operand => [[.not (operandOf operand)]]
  group := fun operand => [[.group (ofDisjuncts operand)]]
  test := fun leaf => [[.test leaf]]
  inQuery := fun tested query negated => [[.inQuery tested query negated]]
  existsIn := fun query negated => [[.existsIn query negated]]
  query := Select.map ofDisjuncts

/-- The disjunction of conjunctions that a printed condition is read as. -/
def reading : Predicate → List (List Predicate) := fold readingWalk

/-- The tree that a printed condition is read as. -/
def reread (predicate : Predicate) : Predicate := ofDisjuncts predicate.reading

end Predicate

/-- The tree that a printed query is read as. -/
def Query.reread (query : Query) : Query := query.map Predicate.reread

namespace Predicate

theorem reading_and (operands : List Predicate) :
    (Predicate.and operands).reading =
      if operands.isEmpty then [[always]] else [operands.flatMap fun operand =>
        conjunctsOf operand.reading] := by
  simp only [reading, fold_and, readingWalk, List.isEmpty_map, List.flatMap_map]

theorem reading_or (operands : List Predicate) :
    (Predicate.or operands).reading =
      if operands.isEmpty then [[never]] else operands.flatMap reading := by
  simp only [reading, fold_or, readingWalk, List.isEmpty_map, List.flatMap_def]

@[simp] theorem reading_not (operand : Predicate) :
    operand.not.reading = [[.not (operandOf operand.reading)]] := rfl

@[simp] theorem reading_group (operand : Predicate) :
    operand.group.reading = [[.group operand.reread]] := rfl

@[simp] theorem reading_test (test : Test) : (Predicate.test test).reading = [[.test test]] := rfl

theorem fold_readingWalk (query : Query) : query.fold readingWalk = query.reread := by
  rw [Query.fold_eq]
  exact Select.map_map _ _ query

@[simp] theorem reading_inQuery (tested : Expr) (query : Query) (negated : Bool) :
    (Predicate.inQuery tested query negated).reading =
      [[.inQuery tested query.reread negated]] := by
  rw [reading, fold_inQuery, fold_readingWalk]
  rfl

@[simp] theorem reading_existsIn (query : Query) (negated : Bool) :
    (Predicate.existsIn query negated).reading = [[.existsIn query.reread negated]] := by
  rw [reading, fold_existsIn, fold_readingWalk]
  rfl

/-- The number of disjuncts and conjuncts that go with the strength of a printed condition. -/
def Shape : Strength → List (List Predicate) → Prop
  | .or, disjuncts => 2 ≤ disjuncts.length
  | .and, disjuncts => ∃ conjuncts, disjuncts = [conjuncts] ∧ 2 ≤ conjuncts.length
  | .not, disjuncts => ∃ operand, disjuncts = [[operand]]
  | .atom, disjuncts => ∃ operand, disjuncts = [[operand]]

theorem printed_and (operands : List Predicate) :
    (Predicate.and operands).printed =
      .joined .and " and " "1 = 1" (operands.map printed) := by
  simp only [printed, fold_and, printWalk]

theorem printed_or (operands : List Predicate) :
    (Predicate.or operands).printed =
      .joined .or " or " "1 = 0" (operands.map printed) := by
  simp only [printed, fold_or, printWalk]

theorem Shape.length_pos {strength : Strength} {disjuncts : List (List Predicate)}
    (shape : Shape strength disjuncts) : 1 ≤ disjuncts.length := by
  cases strength with
  | or => exact Nat.le_of_succ_le shape
  | and => obtain ⟨_, rfl, _⟩ := shape; exact Nat.le_refl 1
  | not => obtain ⟨_, rfl⟩ := shape; exact Nat.le_refl 1
  | atom => obtain ⟨_, rfl⟩ := shape; exact Nat.le_refl 1

theorem conjunctsOf_several {disjuncts : List (List Predicate)} (several : 2 ≤ disjuncts.length) :
    conjunctsOf disjuncts = [.group (ofDisjuncts disjuncts)] := by
  rcases disjuncts with _ | ⟨first, _ | ⟨second, rest⟩⟩
  · contradiction
  · simp at several
  · rfl

theorem operandOf_several {disjuncts : List (List Predicate)} (several : 2 ≤ disjuncts.length) :
    operandOf disjuncts = .group (ofDisjuncts disjuncts) := by
  rcases disjuncts with _ | ⟨first, _ | ⟨second, rest⟩⟩
  · contradiction
  · simp at several
  · simp only [operandOf]

theorem operandOf_conjuncts {conjuncts : List Predicate} (several : 2 ≤ conjuncts.length) :
    operandOf [conjuncts] = .group (ofDisjuncts [conjuncts]) := by
  rcases conjuncts with _ | ⟨first, _ | ⟨second, rest⟩⟩
  · contradiction
  · simp at several
  · rfl

theorem Shape.conjuncts_pos {strength : Strength} {disjuncts : List (List Predicate)}
    (shape : Shape strength disjuncts) : 1 ≤ (conjunctsOf disjuncts).length := by
  cases strength with
  | or => rw [conjunctsOf_several shape]; exact Nat.le_refl 1
  | and => obtain ⟨_, rfl, several⟩ := shape; exact Nat.le_of_succ_le several
  | not => obtain ⟨_, rfl⟩ := shape; exact Nat.le_refl 1
  | atom => obtain ⟨_, rfl⟩ := shape; exact Nat.le_refl 1

theorem two_le_length_flatMap {α β : Type} {f : α → List β} {items : List α}
    (several : 2 ≤ items.length) (each : ∀ x ∈ items, 1 ≤ (f x).length) :
    2 ≤ (items.flatMap f).length := by
  rcases items with _ | ⟨first, _ | ⟨second, rest⟩⟩
  · contradiction
  · simp at several
  · have one := each first List.mem_cons_self
    have two := each second (List.mem_cons_of_mem _ List.mem_cons_self)
    simp only [List.flatMap_cons, List.length_append]
    omega

/-- Operands that are not one are none, or two at least. -/
theorem several_cases {operands : List Predicate} (several : operands.length ≠ 1) :
    operands = [] ∨ ∃ first second rest, operands = first :: second :: rest := by
  rcases operands with _ | ⟨first, _ | ⟨second, rest⟩⟩
  · exact .inl rfl
  · simp at several
  · exact .inr ⟨first, second, rest, rfl⟩

theorem Printable.shape {predicate : Predicate} (printable : predicate.Printable) :
    Shape predicate.printed.strength predicate.reading := by
  induction printable with
  | and several _ ih =>
    rcases several_cases several with rfl | ⟨first, second, rest, rfl⟩
    · exact ⟨always, rfl⟩
    · rw [printed_and, reading_and]
      exact ⟨_, rfl, two_le_length_flatMap (by simp) fun operand found =>
        (ih operand found).conjuncts_pos⟩
  | or several _ ih =>
    rcases several_cases several with rfl | ⟨first, second, rest, rfl⟩
    · exact ⟨never, rfl⟩
    · rw [printed_or, reading_or]
      exact two_le_length_flatMap (by simp) fun operand found => (ih operand found).length_pos
  | not => exact ⟨_, reading_not _⟩
  | group => exact ⟨_, reading_group _⟩
  | test => exact ⟨_, reading_test _⟩
  | inQuery => exact ⟨_, reading_inQuery _ _ _⟩
  | existsIn => exact ⟨_, reading_existsIn _ _⟩

theorem Printable.operandOf_ne {predicate : Predicate} (printable : predicate.Printable)
    (other : ∀ query, predicate ≠ .existsIn query false) (query : Query) :
    operandOf predicate.reading ≠ .existsIn query false := by
  have shape := printable.shape
  cases printable with
  | and several each =>
    rcases several_cases several with rfl | ⟨first, second, rest, rfl⟩
    · rw [reading_and]
      simp [operandOf, always, sameIntegers, equality]
    · rw [printed_and] at shape
      obtain ⟨conjuncts, same, several⟩ := shape
      rw [same, operandOf_conjuncts several]
      simp
  | or several each =>
    rcases several_cases several with rfl | ⟨first, second, rest, rfl⟩
    · rw [reading_or]
      simp [operandOf, never, sameIntegers, equality]
    · rw [printed_or] at shape
      rw [operandOf_several shape]
      simp
  | not => simp [operandOf]
  | group => simp [operandOf]
  | test => simp [operandOf]
  | inQuery => simp [operandOf]
  | @existsIn inner negated =>
    cases negated with
    | false => exact absurd rfl (other inner)
    | true => simp [operandOf]

end Predicate

open Lexing Parse

/-- The text of a condition is read as the disjunction. -/
def ReadAs (text : List Char) (disjuncts : List (List Predicate)) : Prop :=
  ∃ words, Spelled endsWord text words ∧ IsDisjunction words disjuncts

namespace ReadAs

variable {text : List Char} {disjuncts : List (List Predicate)}

/-- A condition without AND and OR. -/
theorem of_unary {operand : Predicate} (unary : ∃ words,
    Spelled endsWord text words ∧ IsUnary words operand) : ReadAs text [[operand]] := by
  obtain ⟨words, spelled, isUnary⟩ := unary
  exact ⟨words, spelled, .one (.one isUnary)⟩

theorem isCondition (readAs : ReadAs text disjuncts) :
    ∃ words, Spelled endsWord text words ∧ IsCondition words (.ofDisjuncts disjuncts) := by
  obtain ⟨words, spelled, chain⟩ := readAs
  exact ⟨words, spelled, chain.isCondition⟩

theorem parenthesized (readAs : ReadAs text disjuncts) :
    ∃ words, Spelled endsWord (Printing.parenthesized text) words ∧
      IsUnary words (.group (.ofDisjuncts disjuncts)) := by
  obtain ⟨words, spelled, isCondition⟩ := readAs.isCondition
  exact ⟨_, spelled_parenthesized spelled, isCondition.isUnary⟩

end ReadAs

namespace Predicate

theorem readAs_sameIntegers {left right : Int64}
    (first : left.toInt.natAbs ≤ largestInteger) (second : right.toInt.natAbs ≤ largestInteger) :
    ReadAs (sameIntegers left right).print [[sameIntegers left right]] := by
  have printable : Test.Printable (.compare (.literal (.synthetic (.integer left))) .equal
      (.literal (.synthetic (.integer right)))) := by
    refine ⟨fun expr found => ?_, trivial⟩
    simp only [Test.exprs, List.mem_cons, List.not_mem_nil, or_false] at found
    rcases found with rfl | rfl
    · exact .literal first
    · exact .literal second
  obtain ⟨words, spelled, isTest⟩ := printable.isTest
  exact .of_unary ⟨words, spelled, isTest.isUnary⟩

theorem readAs_always : ReadAs "1 = 1".toList [[always]] := by
  have print : always.print = "1 = 1".toList := by decide
  rw [← print]
  exact readAs_sameIntegers (by decide) (by decide)

theorem readAs_never : ReadAs "1 = 0".toList [[never]] := by
  have print : never.print = "1 = 0".toList := by decide
  rw [← print]
  exact readAs_sameIntegers (by decide) (by decide)

/-- An operand of AND: itself, or in parentheses if it is a disjunction. -/
theorem readAs_conjunct {condition : PrintedCondition} {disjuncts : List (List Predicate)}
    (shape : Shape condition.strength disjuncts) (readAs : ReadAs condition.text disjuncts) :
    ∃ words, Spelled endsWord (condition.operand .and) words ∧
      IsConjunction words (conjunctsOf disjuncts) := by
  obtain ⟨strength, text⟩ := condition
  have alone : ∀ conjuncts, disjuncts = [conjuncts] → ∃ words,
      Spelled endsWord text words ∧ IsConjunction words (conjunctsOf disjuncts) := by
    rintro conjuncts rfl
    obtain ⟨words, spelled, chain⟩ := readAs
    exact ⟨words, spelled, chain.single⟩
  cases strength with
  | or =>
    obtain ⟨words, spelled, isUnary⟩ := readAs.parenthesized
    rw [conjunctsOf_several shape]
    exact ⟨words, spelled, .one isUnary⟩
  | and => obtain ⟨conjuncts, same, _⟩ := shape; exact alone conjuncts same
  | not => obtain ⟨operand, same⟩ := shape; exact alone [operand] same
  | atom => obtain ⟨operand, same⟩ := shape; exact alone [operand] same

/-- An operand of NOT: itself, or in parentheses if it is a conjunction or a disjunction. -/
theorem readAs_operand {condition : PrintedCondition} {disjuncts : List (List Predicate)}
    (shape : Shape condition.strength disjuncts) (readAs : ReadAs condition.text disjuncts) :
    ∃ words, Spelled endsWord (condition.operand .not) words ∧
      IsUnary words (operandOf disjuncts) := by
  obtain ⟨strength, text⟩ := condition
  have alone : ∀ operand, disjuncts = [[operand]] → ∃ words,
      Spelled endsWord text words ∧ IsUnary words (operandOf disjuncts) := by
    rintro operand rfl
    obtain ⟨words, spelled, chain⟩ := readAs
    exact ⟨words, spelled, chain.single.single⟩
  cases strength with
  | or => rw [operandOf_several shape]; exact readAs.parenthesized
  | and =>
    obtain ⟨conjuncts, rfl, several⟩ := shape
    rw [operandOf_conjuncts several]
    exact readAs.parenthesized
  | not => obtain ⟨operand, same⟩ := shape; exact alone operand same
  | atom => obtain ⟨operand, same⟩ := shape; exact alone operand same

theorem operand_or (condition : PrintedCondition) : condition.operand .or = condition.text := by
  rcases condition with ⟨strength, text⟩
  cases strength <;> rfl

/-- A query inside a condition is read back if its conditions are. -/
theorem readAs_query {query : Query} (level : query.LevelPrintable)
    (each : ∀ condition ∈ query.conditions, ReadAs condition.print condition.reading) :
    ∃ words, Spelled endsWord query.print words ∧ IsQuery words query.reread := by
  rw [Query.print_eq]
  exact QueryGuard.isQuery level fun condition found => (each condition found).isCondition

/-- A printed condition is read as its disjunction of conjunctions. -/
theorem Printable.readAs {predicate : Predicate} (printable : predicate.Printable) :
    ReadAs predicate.print predicate.reading := by
  induction printable with
  | @and operands several each ih =>
    rcases several_cases several with rfl | ⟨first, second, rest, same⟩
    · exact readAs_always
    · have nonempty : operands ≠ [] := by rw [same]; exact List.cons_ne_nil _ _
      have between : Spelled anything " and ".toList [Keyword.and.word] :=
        (spelled_keyword_space .and).space
      obtain ⟨words, spelled, chain⟩ := spelled_chain between
        (fun after => Starts.cons (c := ' ') rfl ("and ".toList ++ after))
        (fun operand => operand.printed.operand .and)
        (fun operand => conjunctsOf operand.reading) nonempty fun operand found =>
          readAs_conjunct (each operand found).shape (ih operand found)
      have text : (Predicate.and operands).print = " and ".toList.intercalate
          (operands.map fun operand => operand.printed.operand .and) := by
        rw [Predicate.print, printed_and, same]
        simp only [List.map_cons, PrintedCondition.joined, List.map_map]
        rfl
      have unempty : ¬ operands.isEmpty := by simp [same]
      rw [text, reading_and, if_neg unempty]
      exact ⟨words, spelled, .one chain⟩
  | @or operands several each ih =>
    rcases several_cases several with rfl | ⟨first, second, rest, same⟩
    · exact readAs_never
    · have nonempty : operands ≠ [] := by rw [same]; exact List.cons_ne_nil _ _
      have between : Spelled anything " or ".toList [Keyword.or.word] :=
        (spelled_keyword_space .or).space
      obtain ⟨words, spelled, chain⟩ := spelled_chain between
        (fun after => Starts.cons (c := ' ') rfl ("or ".toList ++ after))
        (fun operand => operand.printed.operand .or) reading nonempty fun operand found => by rw [operand_or]; exact ih operand found
      have text : (Predicate.or operands).print = " or ".toList.intercalate
          (operands.map fun operand => operand.printed.operand .or) := by
        rw [Predicate.print, printed_or, same]
        simp only [List.map_cons, PrintedCondition.joined, List.map_map]
        rfl
      have unempty : ¬ operands.isEmpty := by simp [same]
      rw [text, reading_or, if_neg unempty]
      exact ⟨words, spelled, chain⟩
  | @not operand other inner ih =>
    obtain ⟨words, spelled, isUnary⟩ := readAs_operand inner.shape ih
    exact .of_unary ⟨_, (spelled_keyword_space .not).appendAny spelled,
      isUnary.not (inner.operandOf_ne other)⟩
  | group inner ih => exact .of_unary ih.parenthesized
  | test leaf =>
    obtain ⟨words, spelled, isTest⟩ := leaf.isTest
    exact .of_unary ⟨words, spelled, isTest.isUnary⟩
  | @inQuery tested query negated expr level each ih =>
    obtain ⟨words, spelled, isQuery⟩ := readAs_query level ih
    obtain ⟨words', spelled', isTested⟩ := expr.isExpr
    rw [reading_inQuery]
    have behind := ((spelled_negation negated .in).appendAny
      (spelled_parenthesized (E := endsWord) spelled)).space
    exact .of_unary ⟨_, (spelled'.append behind rfl).of_eq rfl (by rw [List.append_assoc]; rfl),
      isQuery.isUnary_inQuery isTested negated⟩
  | @existsIn query negated level each ih =>
    obtain ⟨words, spelled, isQuery⟩ := readAs_query level ih
    rw [reading_existsIn]
    have whole := (spelled_negation negated .exists).appendAny
      (spelled_parenthesized (E := endsWord) spelled)
    exact .of_unary ⟨_, whole.of_eq rfl (by rw [List.append_assoc]; rfl),
      isQuery.isUnary_existsIn negated⟩

theorem nesting_conjunctsOf {disjuncts : List (List Predicate)} {bound : Nat}
    (each : ∀ conjuncts ∈ disjuncts, ∀ operand ∈ conjuncts, operand.nesting ≤ bound) :
    ∀ operand ∈ conjunctsOf disjuncts, operand.nesting ≤ bound := by
  unfold conjunctsOf
  split
  · exact each _ List.mem_cons_self
  · intro operand found
    rw [List.mem_singleton.mp found]
    exact nesting_ofDisjuncts_le each

theorem nesting_operandOf {disjuncts : List (List Predicate)} {bound : Nat}
    (each : ∀ conjuncts ∈ disjuncts, ∀ operand ∈ conjuncts, operand.nesting ≤ bound) :
    (operandOf disjuncts).nesting ≤ bound := by
  unfold operandOf
  split
  · exact each _ List.mem_cons_self _ List.mem_cons_self
  · exact nesting_ofDisjuncts_le each

/-- Queries are nested no more deeply in what is read back. -/
theorem nesting_reading (predicate : Predicate) :
    ∀ conjuncts ∈ predicate.reading, ∀ operand ∈ conjuncts,
      operand.nesting ≤ predicate.nesting := by
  have single : ∀ {only predicate : Predicate}, only.nesting ≤ predicate.nesting →
      ∀ conjuncts ∈ [[only]], ∀ operand ∈ conjuncts, operand.nesting ≤ predicate.nesting := by
    intro only predicate below conjuncts member operand found
    rw [List.mem_singleton] at member
    subst member
    rw [List.mem_singleton] at found
    subst found
    exact below
  have query : ∀ query : Query, (∀ condition ∈ query.conditions, ∀ conjuncts ∈ condition.reading,
      ∀ operand ∈ conjuncts, operand.nesting ≤ condition.nesting) →
      query.reread.nesting ≤ query.nesting := fun query each =>
    Query.nesting_map_le fun condition member => nesting_ofDisjuncts_le (each condition member)
  induction predicate using Predicate.induction with
  | and operands ih =>
    rw [reading_and]
    split
    · exact single (Nat.zero_le _)
    · intro conjuncts member operand found
      rw [List.mem_singleton.mp member] at found
      obtain ⟨source, among, found⟩ := List.mem_flatMap.mp found
      exact Nat.le_trans (nesting_conjunctsOf (ih source among) operand found)
        (nesting_le_and among)
  | or operands ih =>
    rw [reading_or]
    split
    · exact single (Nat.zero_le _)
    · intro conjuncts member operand found
      obtain ⟨source, among, member⟩ := List.mem_flatMap.mp member
      exact Nat.le_trans (ih source among conjuncts member operand found) (nesting_le_or among)
  | not operand ih => exact single (nesting_operandOf ih)
  | group operand ih => exact single (nesting_ofDisjuncts_le ih)
  | test test => exact single (Nat.le_refl _)
  | inQuery tested inner negated ih =>
    rw [reading_inQuery]
    exact single (Nat.succ_le_succ (query inner ih))
  | existsIn inner negated ih =>
    rw [reading_existsIn]
    exact single (Nat.succ_le_succ (query inner ih))

end Predicate

theorem Query.nesting_reread (query : Query) : query.reread.nesting ≤ query.nesting :=
  Query.nesting_map_le fun condition _ =>
    Predicate.nesting_ofDisjuncts_le condition.nesting_reading

/-- A printed query is read back as the tree of the form that the grammar knows. -/
theorem Query.Printable.parse_text {query : Query} (printable : query.Printable) {depth : Nat}
    (within : query.nesting ≤ depth) :
    ∃ found, Query.parse query.text depth = .ok found ∧
      found.unplaced = query.reread.unplaced := by
  obtain ⟨words, spelled, isQuery⟩ := Predicate.readAs_query printable.level
    fun condition found => (printable.each condition found).readAs
  have below := query.nesting_reread
  have splits : Splits query.text.toList words := by
    rw [Query.text, String.toList_ofList]
    exact spelled.splits
  have statement : Reads (statement depth) words [] fun found =>
      found.unplaced = query.reread.unplaced :=
    Reads.measured (f := fun size => Parse.query (condition depth size 0)) fun size enough =>
      isQuery.reads depth size 0 [] enough (by omega) (Follows.nil _)
  exact Reads.run splits statement .endOfQuery

end QueryGuard
