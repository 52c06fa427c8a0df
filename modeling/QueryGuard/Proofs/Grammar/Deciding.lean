import Mathlib.Logic.ExistsUnique
import QueryGuard.Proofs.Grammar.Completeness
import QueryGuard.Proofs.Grammar.Soundness
/-!
The parser decides the grammar: it accepts the lexemes that derive a query, and returns the only
query that they derive.
-/

set_option autoImplicit false

namespace QueryGuard

open Grammar

/-- All of the lexemes are read as a query just if they derive it within the limit. -/
theorem Parse.readAll_statement (limit : Nat) (lexemes : List Lexeme) (stop : Nat) (query : Query) :
    (Parse.statement limit).readAll .endOfQuery lexemes stop = .ok query ↔
      Grammar.IsQuery lexemes query ∧ query.nesting ≤ limit :=
  ⟨fun read => Derives.statement.readAll read,
    fun ⟨isQuery, within⟩ => (Takes.statement isQuery within).readAll⟩

/-- Lexemes derive one query at most. -/
theorem Grammar.IsQuery.unique {lexemes : List Lexeme} {query query' : Query}
    (isQuery : Grammar.IsQuery lexemes query) (isQuery' : Grammar.IsQuery lexemes query') :
    query = query' := by
  let limit := max query.nesting query'.nesting
  have first := (Parse.readAll_statement limit lexemes 0 query).mpr
    ⟨isQuery, Nat.le_max_left _ _⟩
  have second := (Parse.readAll_statement limit lexemes 0 query').mpr
    ⟨isQuery', Nat.le_max_right _ _⟩
  exact Except.ok.inj (first.symm.trans second)

/-- The parser accepts just what the grammar derives within the limit on queries inside each
other, whatever the lexemes; they derive one query at most, and that is what it returns. -/
theorem Query.parse_derives (limit : Nat) :
    (∀ lexemes stop query,
      (Parse.statement limit).readAll .endOfQuery lexemes stop = .ok query ↔
        Grammar.IsQuery lexemes query ∧ query.nesting ≤ limit) ∧
      (∀ lexemes, (∃ query, Grammar.IsQuery lexemes query) ↔
        ∃! query, Grammar.IsQuery lexemes query) ∧
      ∀ source query, Query.parse source limit = .ok query ↔
        ∃ lexemes, tokenize source = .ok lexemes ∧ Grammar.IsQuery lexemes query ∧
          query.nesting ≤ limit := by
  refine ⟨Parse.readAll_statement limit, fun lexemes => ⟨?_, ?_⟩, fun source query => ?_⟩
  · rintro ⟨query, isQuery⟩
    exact ⟨query, isQuery, fun other isOther => isOther.unique isQuery⟩
  · rintro ⟨query, isQuery, _⟩
    exact ⟨query, isQuery⟩
  · unfold Query.parse Parse.run
    cases tokens : tokenize source with
    | error error => simp
    | ok lexemes => simp [Parse.readAll_statement]

/-- Reserved words stand for entities and attributes, but not for aliases. -/
example : (Query.parse "select o.order from from o" 0).toOption.isSome ∧
    (Query.parse "select o from Order order" 0).toOption.isNone := by decide +kernel

end QueryGuard
