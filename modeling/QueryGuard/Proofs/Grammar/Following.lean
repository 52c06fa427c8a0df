import QueryGuard.Proofs.Grammar.Shape
/-!
What comes first in lexemes, and what may follow a construct of the grammar.
-/

set_option autoImplicit false

namespace QueryGuard.Grammar

open Parse

/-- The first lexeme, if there is one, is of the given kind. -/
abbrev Ahead (kind : Token → Bool) (rest : List Lexeme) : Prop :=
  Follows kind (rest.map Lexeme.word)

namespace Ahead

variable {kind : Token → Bool} {lexeme : Lexeme} {words rest : List Lexeme} {token : Token}

theorem cons (same : lexeme.token = token) (holds : kind token) : Ahead kind (lexeme :: rest) := by
  subst same
  exact Follows.cons holds

theorem cons_ne (differs : lexeme.token ≠ token) :
    Ahead (fun found => found ≠ token) (lexeme :: rest) := Follows.cons_ne differs

theorem head_ne (ahead : Ahead (fun found => found ≠ token) rest) :
    rest.head?.map (·.token) ≠ some token := by
  have differs := Follows.head_ne ahead
  rwa [List.head?_map, Option.map_map] at differs

theorem nil_or_cons (ahead : Ahead kind rest) :
    rest = [] ∨ ∃ lexeme more, rest = lexeme :: more ∧ kind lexeme.token := by
  cases rest with
  | nil => exact .inl rfl
  | cons lexeme more => exact .inr ⟨lexeme, more, rfl, ahead _ rfl⟩

/-- Lexemes that cannot be missing decide alone what comes first. -/
theorem append (first : Ahead kind words) (nonempty : words ≠ []) : Ahead kind (words ++ rest) := by
  rw [Ahead, List.map_append]
  exact Follows.append first (by simpa using nonempty)

end Ahead

/-- What starts with one kind of token starts with no other. -/
theorem Begins.other {kind : Token → Bool} {words rest : List Lexeme} (begins : Begins kind words)
    {token : Token} (other : kind token = false) :
    Ahead (fun found => found ≠ token) (words ++ rest) := by
  obtain ⟨lexeme, more, rfl, holds⟩ := begins
  refine .cons_ne fun same => ?_
  rw [same, other] at holds
  contradiction

theorem IsIdentifier.other {words rest : List Lexeme} {name : Name}
    (isIdentifier : IsIdentifier words name) {token : Token}
    (plain : ∀ text, token ≠ .name text) (quoted : ∀ text, token ≠ .quotedName text) :
    Ahead (fun found => found ≠ token) (words ++ rest) := by
  obtain ⟨lexeme, rfl, same | same⟩ := isIdentifier.single
  · exact .cons_ne (by rw [same]; exact (plain _).symm)
  · exact .cons_ne (by rw [same]; exact (quoted _).symm)

/-! ### Behind expressions -/

theorem endsExpr_of_closing {keywords : List Keyword} {token : Token}
    (holds : closing keywords token) : endsExpr token := by
  rcases closing_iff.mp holds with rfl | ⟨keyword, _, rfl⟩ <;> rfl

theorem comparison?_of_spelling {symbol : Symbol} {comparison : Comparison}
    (same : symbol.spelling = comparison.spelling) :
    comparison? (.symbol symbol) = some comparison := by
  cases symbol <;> cases comparison <;> first | rfl | exact absurd same (by decide)

/-- A reserved word ends an expression, also with NOT in front of it. -/
theorem Optionally.ends {words words' rest : List Lexeme} {lexeme : Lexeme} {keyword : Keyword}
    {negated : Bool} (opposite : Optionally (.keyword .not) words negated)
    (announced : lexeme.token = .keyword keyword) :
    Ahead endsExpr ((words ++ lexeme :: words') ++ rest) := by
  cases opposite with
  | absent => exact .cons announced rfl
  | present same => exact .cons same rfl

/-- An expression ends where a test of it starts. -/
theorem IsTest.ends {words rest : List Lexeme} {tested : Expr} {test : Test}
    (isTest : IsTest tested words test) : Ahead endsExpr (words ++ rest) := by
  cases isTest with
  | @compare operator symbol comparison _ _ written compares _ =>
    have known := comparison?_of_spelling compares
    refine .cons written ?_
    cases symbol <;> first | rfl | simp [comparison?] at known
  | inList opposite announced _ => exact opposite.ends announced
  | inParameter opposite announced _ => exact opposite.ends announced
  | between opposite announced _ _ _ => exact opposite.ends announced
  | isNull announced _ _ => exact .cons announced rfl
  | like opposite announced _ _ => exact opposite.ends announced

/-! ### Behind clauses -/

/-- What may follow an item of the select list. -/
def afterItem (token : Token) : Bool := token = .symbol .comma || token = .keyword .from

theorem afterItem_iff {token : Token} :
    afterItem token ↔ token = .symbol .comma ∨ token = .keyword .from := by
  simp [afterItem]

/-- What may follow the joins of a query. -/
def afterJoins : List Keyword := [.where, .group, .having, .order, .limit, .offset]

/-- What may follow an item of the ORDER BY clause. -/
def afterOrderItem (token : Token) : Bool :=
  token = .symbol .comma || closing [.limit, .offset] token

theorem afterOrderItem_iff {token : Token} :
    afterOrderItem token ↔ token = .symbol .comma ∨ token = .symbol .closeParen ∨
      token = .keyword .limit ∨ token = .keyword .offset := by
  simp [afterOrderItem, closing]

/-- A clause is put in front of what may follow it. -/
theorem Maybe.follows {α : Type} {item : Rule α} {keyword : Keyword} {keywords : List Keyword}
    {words words' rest : List Lexeme} {value : Option α}
    (maybe : Maybe (Behind (.keyword keyword) item) words value)
    (follows : Ahead (closing keywords) (words' ++ rest)) :
    Ahead (closing (keyword :: keywords)) ((words ++ words') ++ rest) := by
  cases maybe with
  | absent => exact follows.closing_mono (List.subset_cons_self _ _)
  | present behind =>
    cases behind with
    | mk same _ =>
      exact .cons same (closing_iff.mpr (.inr ⟨keyword, List.mem_cons_self, rfl⟩))

/-- Items are put in front of what may follow an item, with a token between two. -/
theorem Repeated.follows {α : Type} {item : Rule α} {separator : Token} {kind : Token → Bool}
    {words rest : List Lexeme} {values : List α}
    (others : Repeated (Behind separator item) words values) (separates : kind separator)
    (follows : Ahead kind rest) : Ahead kind (words ++ rest) := by
  cases others with
  | none => exact follows
  | more next _ =>
    cases next with
    | mk same _ => exact .cons same separates

end QueryGuard.Grammar
