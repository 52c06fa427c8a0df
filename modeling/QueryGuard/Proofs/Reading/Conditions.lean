import QueryGuard.Proofs.Reading.Tests
import QueryGuard.Proofs.Trees
/-!
Printed conditions are read back, if the queries inside them are.

A condition is read as a disjunction of conjunctions. What AND joins are its unary conditions:
those without AND and OR outside of parentheses.
-/

set_option autoImplicit false

namespace QueryGuard

namespace Predicate

/-- What a disjunction of conjunctions is read as. -/
def ofDisjuncts (disjuncts : List (List Predicate)) : Predicate := anyOf (disjuncts.map allOf)

theorem nesting_ofDisjuncts_le {disjuncts : List (List Predicate)} {bound : Nat}
    (each : ∀ conjuncts ∈ disjuncts, ∀ operand ∈ conjuncts, operand.nesting ≤ bound) :
    (ofDisjuncts disjuncts).nesting ≤ bound := by
  apply nesting_anyOf_le
  intro operand found
  obtain ⟨conjuncts, member, rfl⟩ := List.mem_map.mp found
  exact nesting_allOf_le (each conjuncts member)

end Predicate

open Lexing Parse

/-- The step that reads the conditions which AND and NOT apply to. -/
def Parse.atomAt (limit depth level : Nat) : Parse Predicate :=
  atom (condition limit depth level)
    (subquery limit level (query (condition limit depth (level + 1))))

/-- The words are read as the query. -/
structure IsQuery (words : List Word) (query : Query) : Prop where
  starts : ∃ more, words = Keyword.select.word :: more
  reads : ∀ limit depth level rest, words.length ≤ depth → level + query.nesting ≤ limit →
    Follows (closing []) rest →
    Reads (Parse.query (condition limit depth level)) words rest (·.unplaced = query.unplaced)

/-- The words are read as the condition where one without AND and OR is expected. -/
structure IsUnary (words : List Word) (condition : Predicate) : Prop where
  starts : ∃ word more, words = word :: more ∧
    (word.token = .keyword .exists → ∃ query, condition = .existsIn query false)
  reads : ∀ limit depth level bound rest, words.length ≤ depth → words.length ≤ bound →
    level + condition.nesting ≤ limit → Follows (closing afterOperand) rest →
    Reads (negation (atomAt limit depth level) bound) words rest
      (·.unplaced = condition.unplaced)

/-- The words are read as a conjunction of the conditions. -/
abbrev IsConjunction : List Word → List Predicate → Prop := Chain IsUnary Keyword.and.word

/-- The words are read as a disjunction of the conjunctions. -/
abbrev IsDisjunction : List Word → List (List Predicate) → Prop :=
  Chain IsConjunction Keyword.or.word

/-- The words are read as the condition. -/
def IsCondition (words : List Word) (predicate : Predicate) : Prop :=
  ∀ limit depth level rest, words.length < depth → level + predicate.nesting ≤ limit →
    Follows (closing afterCondition) rest →
    Reads (condition limit depth level) words rest (·.unplaced = predicate.unplaced)

theorem IsDisjunction.isCondition {words : List Word} {disjuncts : List (List Predicate)}
    (chain : IsDisjunction words disjuncts) : IsCondition words (.ofDisjuncts disjuncts) := by
  intro limit depth level rest enough within follows
  obtain ⟨depth, rfl⟩ : ∃ smaller, depth = smaller + 1 := ⟨depth - 1, by omega⟩
  change Reads (disjunction (atomAt limit depth level)) words rest _
  have unary : ∀ conjuncts ∈ disjuncts, ∀ words value rest,
      (words.length ≤ depth ∧ value ∈ conjuncts ∧ IsUnary words value) →
      Follows (closing afterOperand) rest →
      Reads (do negation (atomAt limit depth level) (← get).rest.length) words rest
        (·.unplaced = value.unplaced) := by
    intro conjuncts member words value rest ⟨enough, found, isUnary⟩ follows
    have inside : value.nesting ≤ (Predicate.ofDisjuncts disjuncts).nesting :=
      Nat.le_trans (Predicate.nesting_le_allOf found)
        (Predicate.nesting_le_anyOf (List.mem_map_of_mem member))
    exact Reads.measured fun size small =>
      isUnary.reads limit depth level size rest enough small (by omega) follows
  have conjunction : ∀ words conjuncts rest,
      (words.length ≤ depth ∧ conjuncts ∈ disjuncts ∧ IsConjunction words conjuncts) →
      Follows (closing (.or :: afterCondition)) rest →
      Reads (Predicate.allOf <$> separated (.keyword .and)
        (do negation (atomAt limit depth level) (← get).rest.length)) words rest
        (·.unplaced = (Predicate.allOf conjuncts).unplaced) := by
    intro words conjuncts rest ⟨enough, member, isConjunction⟩ follows
    refine Reads.map ((Reads.separated rfl rfl (unary conjuncts member)
      (isConjunction.bounded enough (List.Subset.refl _))
      (follows.closing_mono (List.subset_cons_self _ _))
      (follows.ne_keyword (by decide))).mono fun found same => ?_)
    rw [Predicate.unplaced_allOf, Predicate.unplaced_allOf, same]
  refine Reads.map ((Reads.separated rfl rfl conjunction
    (chain.bounded (by omega) (List.Subset.refl _))
    (follows.closing_mono (List.subset_cons_self _ _))
    (follows.ne_keyword (by decide))).mono fun found same => ?_)
  rw [Predicate.ofDisjuncts, Predicate.unplaced_anyOf, Predicate.unplaced_anyOf, same,
    List.map_map]
  rfl

namespace Parse.Reads

variable {limit depth level bound : Nat} {words rest : List Word} {good : Predicate → Prop}

/-- A condition that does not start with NOT. -/
theorem affirmed {atom : Parse Predicate}
    (other : Follows (fun token => token ≠ .keyword .not) (words ++ rest))
    (reads : Reads atom words rest good) : Reads (negation atom bound) words rest good := by
  cases bound with
  | zero => exact reads
  | succ bound => exact passed other reads

end Parse.Reads

theorem IsTest.isUnary {words : List Word} {test : Test} (isTest : IsTest words test) :
    IsUnary words (.test test) := by
  obtain ⟨word, more, rfl, starts⟩ := isTest.starts
  have other : ∀ {token} (_ : startsExpr token = false) (rest : List Word),
      Follows (fun found => found ≠ token) ((word :: more) ++ rest) := by
    intro token other rest
    refine .cons_ne fun same => ?_
    rw [same, other] at starts
    contradiction
  refine ⟨⟨word, more, rfl, fun same => ?_⟩, ?_⟩
  · rw [same] at starts
    contradiction
  · intro limit depth level bound rest _ _ _ follows
    exact Reads.affirmed (other rfl rest) (Reads.passed (other rfl rest)
      (Reads.passed (other rfl rest) (isTest.reads _ rest follows)))

/-- A condition in parentheses. -/
theorem IsCondition.isUnary {words : List Word} {predicate : Predicate}
    (isCondition : IsCondition words predicate) :
    IsUnary (Symbol.openParen.word :: (words ++ [Symbol.closeParen.word])) predicate.group := by
  refine ⟨⟨_, _, rfl, fun same => by contradiction⟩, ?_⟩
  intro limit depth level bound rest enough _ within _
  simp only [List.length_append, List.length_cons, List.length_nil] at enough
  refine Reads.affirmed (.cons rfl) (Reads.accepted rfl ?_)
  refine Reads.bind (isCondition limit depth level _ (by omega) within (.cons rfl))
    fun inner same => Reads.expecting rfl fun _ => Reads.pure ?_
  rw [Predicate.unplaced_group, Predicate.unplaced_group, same]

/-- A query in parentheses. -/
theorem IsQuery.parenthesized {words rest : List Word} {query : Query} (isQuery : IsQuery words query)
    {limit depth level : Nat} (enough : words.length ≤ depth)
    (within : level + (query.nesting + 1) ≤ limit) {next : Query → Parse Predicate}
    {good : Predicate → Prop}
    (reads : ∀ found, found.unplaced = query.unplaced → Reads (next found) [] rest good) :
    Reads (do
      let query ← subquery limit level (Parse.query (condition limit depth (level + 1)))
      let _ ← closeParen
      next query) (words ++ [Symbol.closeParen.word]) rest good := by
  refine Reads.bind (P := fun found => found.unplaced = query.unplaced) ?_
    fun found same => Reads.expecting rfl fun _ => reads found same
  rw [subquery, if_neg (by omega)]
  exact isQuery.reads limit depth (level + 1) _ enough (by omega) (.cons rfl)

/-- EXISTS, also with NOT in front of it. -/
theorem IsQuery.isUnary_existsIn {words : List Word} {query : Query} (isQuery : IsQuery words query)
    (negated : Bool) :
    IsUnary
      (Keyword.not.word.when negated ++ Keyword.exists.word ::
        Symbol.openParen.word :: (words ++ [Symbol.closeParen.word]))
      (.existsIn query negated) := by
  have inner : ∀ limit depth level rest, words.length ≤ depth →
      level + (query.nesting + 1) ≤ limit →
      Reads (atomAt limit depth level)
        (Keyword.exists.word :: Symbol.openParen.word :: (words ++ [Symbol.closeParen.word])) rest
        fun found => ∃ query' : Query, found = .existsIn query' false ∧
          query'.unplaced = query.unplaced := by
    intro limit depth level rest enough within
    refine Reads.passed (.cons rfl) (Reads.accepted rfl (Reads.expecting rfl fun _ => ?_))
    exact isQuery.parenthesized enough within fun found same => Reads.pure ⟨found, rfl, same⟩
  cases negated with
  | false =>
    refine ⟨⟨_, _, rfl, fun _ => ⟨query, rfl⟩⟩, ?_⟩
    intro limit depth level bound rest enough _ within _
    simp only [Word.when, List.length_append, List.length_cons, List.length_nil] at enough
    refine Reads.affirmed (.cons rfl) ((inner limit depth level rest (by omega) within).mono ?_)
    rintro _ ⟨query', rfl, same⟩
    rw [Predicate.unplaced_existsIn, Predicate.unplaced_existsIn, same]
  | true =>
    refine ⟨⟨_, _, rfl, fun same => by contradiction⟩, ?_⟩
    intro limit depth level bound rest enough bounded within _
    simp only [Word.when, List.length_append, List.length_cons, List.length_nil] at enough bounded
    obtain ⟨bound, rfl⟩ : ∃ smaller, bound = smaller + 1 := ⟨bound - 1, by omega⟩
    refine Reads.accepted rfl (Reads.peeked rfl ?_)
    refine Reads.map ((inner limit depth level rest (by omega) within).mono ?_)
    rintro _ ⟨query', rfl, same⟩
    rw [opposite, Predicate.unplaced_existsIn, Predicate.unplaced_existsIn, same]
    rfl

/-- NOT in front of any condition but EXISTS. -/
theorem IsUnary.not {words : List Word} {predicate : Predicate} (isUnary : IsUnary words predicate)
    (other : ∀ query, predicate ≠ .existsIn query false) :
    IsUnary (Keyword.not.word :: words) predicate.not := by
  refine ⟨⟨_, _, rfl, fun same => by contradiction⟩, ?_⟩
  intro limit depth level bound rest enough bounded within follows
  rw [List.length_cons] at enough bounded
  obtain ⟨bound, rfl⟩ : ∃ smaller, bound = smaller + 1 := ⟨bound - 1, by omega⟩
  have noExists : Follows (fun token => token ≠ .keyword .exists) (words ++ rest) := by
    obtain ⟨word, more, rfl, starts⟩ := isUnary.starts
    refine .cons_ne fun same => ?_
    obtain ⟨query, rfl⟩ := starts same
    exact other query rfl
  refine Reads.accepted rfl (Reads.unpeeked noExists ?_)
  refine Reads.all (isUnary.reads limit depth level bound rest (by omega) (by omega) within
    follows) fun found same => Reads.pure ?_
  rw [Predicate.unplaced_not, Predicate.unplaced_not, same]

/-- A test of an expression against the rows of a query. -/
theorem IsQuery.isUnary_inQuery {words words' : List Word} {query : Query} {tested : Expr}
    (isQuery : IsQuery words query) (isTested : IsExpr words' tested) (negated : Bool) :
    IsUnary
      (words' ++ (Keyword.not.word.when negated ++ Keyword.in.word ::
        Symbol.openParen.word :: (words ++ [Symbol.closeParen.word])))
      (.inQuery tested query negated) := by
  have starts := isTested.starts
  obtain ⟨word, more, rfl, first⟩ := starts
  refine ⟨⟨word, _, rfl, fun same => ?_⟩, ?_⟩
  · rw [same] at first
    contradiction
  · intro limit depth level bound rest enough _ within follows
    simp only [List.length_append, List.length_cons, List.length_nil] at enough
    refine Reads.affirmed ?_ (Reads.passed ?_ (Reads.passed ?_ ?_))
    iterate 3
      rw [List.append_assoc]
      exact isTested.follows rfl
    refine Reads.bind (isTested.expression ?_) fun tested' same => ?_
    · exact follows_negated.append (by simp)
    · refine Reads.negatable (by decide) (by decide) (Reads.accepted rfl (Reads.peek ?_))
      obtain ⟨others, rfl⟩ := isQuery.starts
      refine Reads.expecting rfl fun _ => Reads.peeked rfl ?_
      refine isQuery.parenthesized (by omega) within fun found same' => Reads.pure ?_
      rw [Predicate.unplaced_inQuery, Predicate.unplaced_inQuery, same, same']

end QueryGuard
