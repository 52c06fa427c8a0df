import QueryGuard.Syntax.Printer
import QueryGuard.Syntax.Token
/-!
The grammar of the query language: which lexemes derive which trees.

A rule relates the lexemes of a construct to the tree they stand for, its places included. Optional
parts of the grammar are `Maybe` here, repeated ones `Repeated`, and lists are `Separated` by a
token. Nothing is said of how a text is read: the rules know of no next lexeme, and no order in
which their parts are tried.

Conditions hold queries and queries hold conditions. The rule of a query leaves open what its
conditions derive from, as the tree of a query leaves open what its conditions are.
-/

set_option autoImplicit false

namespace QueryGuard.Grammar

/-- Which lexemes stand for which values. -/
abbrev Rule (α : Type) := List Lexeme → α → Prop

/-- The place of the last lexeme, or the previous one if there is none. -/
def lastPlace (previous : Span) (words : List Lexeme) : Span :=
  words.foldl (fun _ lexeme => lexeme.span) previous

/-- The place of a construct, from its first lexeme to its last one. -/
def extent : List Lexeme → Span
  | [] => .synthetic
  | first :: rest => first.span.merge (lastPlace first.span rest)

section

variable {α : Type}

/-- A token that may be left out; the value says whether it is there. -/
inductive Optionally (token : Token) : Rule Bool where
  | absent : Optionally token [] false
  | present {lexeme : Lexeme} (same : lexeme.token = token) : Optionally token [lexeme] true

/-- A construct behind a token. -/
inductive Behind (token : Token) (item : Rule α) : Rule α where
  | mk {lexeme : Lexeme} {words : List Lexeme} {value : α} (same : lexeme.token = token)
      (holds : item words value) : Behind token item (lexeme :: words) value

/-- A construct in parentheses. -/
inductive Enclosed (item : Rule α) : Rule α where
  | mk {opening closing : Lexeme} {words : List Lexeme} {value : α}
      (opened : opening.token = .symbol .openParen) (holds : item words value)
      (closed : closing.token = .symbol .closeParen) :
      Enclosed item (opening :: (words ++ [closing])) value

/-- A construct that may be left out. -/
inductive Maybe (item : Rule α) : Rule (Option α) where
  | absent : Maybe item [] none
  | present {words : List Lexeme} {value : α} (holds : item words value) :
      Maybe item words (some value)

/-- A construct as often as wanted, or not at all. -/
inductive Repeated (item : Rule α) : Rule (List α) where
  | none : Repeated item [] []
  | more {words words' : List Lexeme} {value : α} {values : List α} (first : item words value)
      (others : Repeated item words' values) : Repeated item (words ++ words') (value :: values)

/-- A construct once or several times, with a token between two. -/
inductive Separated (separator : Token) (item : Rule α) : Rule (List α) where
  | mk {words words' : List Lexeme} {value : α} {values : List α} (first : item words value)
      (others : Repeated (Behind separator item) words' values) :
      Separated separator item (words ++ words') (value :: values)

end

/-! ### Names -/

/-- A name that is no reserved word, or is in quotes. -/
inductive IsIdentifier : Rule Name where
  | plain {lexeme : Lexeme} {text : String} (same : lexeme.token = .name text) :
      IsIdentifier [lexeme] ⟨text, lexeme.span⟩
  | quoted {lexeme : Lexeme} {text : String} (same : lexeme.token = .quotedName text) :
      IsIdentifier [lexeme] ⟨text, lexeme.span⟩

/-- An identifier, or a reserved word that stands for itself as it is written. -/
inductive IsWord : Rule Name where
  | identifier {words : List Lexeme} {name : Name} (holds : IsIdentifier words name) :
      IsWord words name
  | reserved {lexeme : Lexeme} {keyword : Keyword} (same : lexeme.token = .keyword keyword) :
      IsWord [lexeme] ⟨lexeme.text, lexeme.span⟩

/-- An identifier, and attributes behind dots. -/
inductive IsPath : Rule Path where
  | mk {words words' : List Lexeme} {root : Name} {attributes : List Name}
      (first : IsIdentifier words root)
      (others : Repeated (Behind (.symbol .dot) IsWord) words' attributes) :
      IsPath (words ++ words') ⟨root, attributes,
        attributes.foldl (fun span name => span.merge name.span) root.span⟩

/-! ### Expressions -/

/-- A constant; only numbers have a sign. -/
inductive IsLiteral : Rule (Located Literal) where
  | string {lexeme : Lexeme} {text : String} (same : lexeme.token = .string text) :
      IsLiteral [lexeme] ⟨.string text, lexeme.span⟩
  | integer {lexeme : Lexeme} {value : Nat} (same : lexeme.token = .integer value) :
      IsLiteral [lexeme] ⟨.integer (.ofNat value), lexeme.span⟩
  | decimal {lexeme : Lexeme} {value : Binary64} (same : lexeme.token = .decimal value) :
      IsLiteral [lexeme] ⟨.decimal value, lexeme.span⟩
  | true {lexeme : Lexeme} (same : lexeme.token = .keyword .true) :
      IsLiteral [lexeme] ⟨.bool Bool.true, lexeme.span⟩
  | false {lexeme : Lexeme} (same : lexeme.token = .keyword .false) :
      IsLiteral [lexeme] ⟨.bool Bool.false, lexeme.span⟩
  | null {lexeme : Lexeme} (same : lexeme.token = .keyword .null) :
      IsLiteral [lexeme] ⟨.null, lexeme.span⟩
  | negativeInteger {sign lexeme : Lexeme} {value : Nat} (minus : sign.token = .symbol .minus)
      (same : lexeme.token = .integer value) :
      IsLiteral [sign, lexeme] ⟨.integer (.ofInt (-value)), extent [sign, lexeme]⟩
  | negativeDecimal {sign lexeme : Lexeme} {value : Binary64} (minus : sign.token = .symbol .minus)
      (same : lexeme.token = .decimal value) :
      IsLiteral [sign, lexeme] ⟨.decimal value.neg, extent [sign, lexeme]⟩

/-- A path, a constant, a parameter or a call. Aggregates have one argument, and only they may
skip equal values. -/
inductive IsExpr : Rule Expr where
  | path {words : List Lexeme} {path : Path} (holds : IsPath words path) :
      IsExpr words (.path path)
  | literal {words : List Lexeme} {literal : Located Literal} (holds : IsLiteral words literal) :
      IsExpr words (.literal literal)
  | parameter {lexeme : Lexeme} {marker : String} (same : lexeme.token = .parameter marker) :
      IsExpr [lexeme] (.parameter ⟨marker, lexeme.span⟩)
  | aggregate {callee opening closing : Lexeme} {words words' : List Lexeme} {name : String}
      {function : Aggregate} {distinct : Bool} {argument : Expr}
      (called : callee.token = .name name) (known : Aggregate.ofName? name = some function)
      (opened : opening.token = .symbol .openParen)
      (skips : Optionally (.keyword .distinct) words distinct) (inside : IsExpr words' argument)
      (closed : closing.token = .symbol .closeParen) :
      IsExpr (callee :: opening :: (words ++ (words' ++ [closing])))
        (.aggregate function distinct argument (callee.span.merge closing.span))
  | call {callee opening closing : Lexeme} {words : List Lexeme} {name : String}
      {arguments : Option (List Expr)}
      (called : callee.token = .name name) (custom : Aggregate.ofName? name = none)
      (opened : opening.token = .symbol .openParen)
      (inside : Maybe (Separated (.symbol .comma) IsExpr) words arguments)
      (closed : closing.token = .symbol .closeParen) :
      IsExpr (callee :: opening :: (words ++ [closing]))
        (.call ⟨name, callee.span⟩ (arguments.getD []) (callee.span.merge closing.span))

/-! ### Conditions -/

/-- The text behind ESCAPE. -/
inductive IsText : Rule Name where
  | mk {lexeme : Lexeme} {text : String} (same : lexeme.token = .string text) :
      IsText [lexeme] ⟨text, lexeme.span⟩

/-- What is said of an expression, behind it. -/
inductive IsTest (tested : Expr) : Rule Test where
  | compare {operator : Lexeme} {symbol : Symbol} {comparison : Comparison} {words : List Lexeme}
      {right : Expr} (written : operator.token = .symbol symbol)
      (compares : symbol.spelling = comparison.spelling) (other : IsExpr words right) :
      IsTest tested (operator :: words) (.compare tested comparison right)
  | inList {member : Lexeme} {words words' : List Lexeme} {negated : Bool} {items : List Expr}
      (opposite : Optionally (.keyword .not) words negated)
      (announced : member.token = .keyword .in)
      (listed : Enclosed (Separated (.symbol .comma) IsExpr) words' items) :
      IsTest tested (words ++ member :: words') (.inList tested items negated)
  | inParameter {member lexeme : Lexeme} {words : List Lexeme} {negated : Bool} {marker : String}
      (opposite : Optionally (.keyword .not) words negated)
      (announced : member.token = .keyword .in) (same : lexeme.token = .parameter marker) :
      IsTest tested (words ++ [member, lexeme])
        (.inParameter tested ⟨marker, lexeme.span⟩ negated)
  | between {between and : Lexeme} {words words' words'' : List Lexeme} {negated : Bool}
      {low high : Expr} (opposite : Optionally (.keyword .not) words negated)
      (announced : between.token = .keyword .between) (least : IsExpr words' low)
      (joined : and.token = .keyword .and) (most : IsExpr words'' high) :
      IsTest tested (words ++ between :: (words' ++ and :: words''))
        (.between tested low high negated)
  | isNull {is null : Lexeme} {words : List Lexeme} {negated : Bool}
      (announced : is.token = .keyword .is) (opposite : Optionally (.keyword .not) words negated)
      (same : null.token = .keyword .null) :
      IsTest tested (is :: (words ++ [null])) (.isNull tested negated)
  | like {like : Lexeme} {words words' words'' : List Lexeme} {negated : Bool} {pattern : Expr}
      {escape : Option Name} (opposite : Optionally (.keyword .not) words negated)
      (announced : like.token = .keyword .like) (matched : IsExpr words' pattern)
      (escaped : Maybe (Behind (.keyword .escape) IsText) words'' escape) :
      IsTest tested (words ++ like :: (words' ++ words'')) (.like tested pattern escape negated)

/-! ### Queries -/

/-- An entity with its alias. -/
inductive IsRange : Rule Range where
  | mk {words words' words'' : List Lexeme} {entity name : Name} {there : Bool}
      (kind : IsWord words entity) (as : Optionally (.keyword .as) words' there)
      (goesBy : IsIdentifier words'' name) : IsRange (words ++ (words' ++ words'')) ⟨entity, name⟩

/-- An expression of the select list, with a label or without one. -/
inductive IsSelectItem : Rule SelectItem where
  | bare {words : List Lexeme} {expr : Expr} (value : IsExpr words expr) :
      IsSelectItem words ⟨expr, none, expr.span⟩
  | labelled {words words' words'' : List Lexeme} {expr : Expr} {there : Bool} {label : Name}
      (value : IsExpr words expr) (as : Optionally (.keyword .as) words' there)
      (name : IsIdentifier words'' label) :
      IsSelectItem (words ++ (words' ++ words'')) ⟨expr, label, expr.span.merge label.span⟩

/-- The words that announce a join. -/
inductive IsJoinKind : Rule JoinKind where
  | inner {lexeme : Lexeme} {words : List Lexeme} {there : Bool}
      (inner : Optionally (.keyword .inner) words there) (same : lexeme.token = .keyword .join) :
      IsJoinKind (words ++ [lexeme]) .inner
  | left {left lexeme : Lexeme} {words : List Lexeme} {there : Bool}
      (announced : left.token = .keyword .left) (outer : Optionally (.keyword .outer) words there)
      (same : lexeme.token = .keyword .join) : IsJoinKind (left :: (words ++ [lexeme])) .left

/-- What is joined: a path of an attribute at least, or an entity. -/
inductive IsJoinTarget : Rule JoinTarget where
  | path {words : List Lexeme} {path : Path} (holds : IsPath words path)
      (along : path.attributes ≠ []) : IsJoinTarget words (.path path)
  | entity {words : List Lexeme} {name : Name} (holds : IsWord words name) :
      IsJoinTarget words (.entity name)

/-- A join; one to an entity has a condition. -/
inductive IsJoin {Condition : Type} (condition : Rule Condition) : Rule (Join Condition) where
  | mk {words words₁ words₂ words₃ words₄ words₅ : List Lexeme} {kind : JoinKind}
      {target : JoinTarget} {name : Name} {on : Option Condition} {there : Bool}
      (announced : IsJoinKind words₁ kind) (joined : IsJoinTarget words₂ target)
      (as : Optionally (.keyword .as) words₃ there) (goesBy : IsIdentifier words₄ name)
      (related : Maybe (Behind (.keyword .on) condition) words₅ on)
      (required : ∀ entity, target = .entity entity → on.isSome)
      (whole : words = words₁ ++ (words₂ ++ (words₃ ++ (words₄ ++ words₅)))) :
      IsJoin condition words ⟨kind, target, name, on, extent words⟩

/-- An expression that rows are ordered by. -/
inductive IsOrderItem : Rule OrderItem where
  | ascending {words words' : List Lexeme} {expr : Expr} {there : Bool}
      (value : IsExpr words expr) (asc : Optionally (.keyword .asc) words' there) :
      IsOrderItem (words ++ words')
        ⟨expr, .ascending, expr.span.merge (lastPlace expr.span (words ++ words'))⟩
  | descending {lexeme : Lexeme} {words : List Lexeme} {expr : Expr}
      (value : IsExpr words expr) (desc : lexeme.token = .keyword .desc) :
      IsOrderItem (words ++ [lexeme]) ⟨expr, .descending, expr.span.merge lexeme.span⟩

/-- The number of a clause. -/
inductive IsCount : Rule (Located Nat) where
  | mk {lexeme : Lexeme} {value : Nat} (same : lexeme.token = .integer value) :
      IsCount [lexeme] ⟨value, lexeme.span⟩

/-- A list that a reserved word announces together with BY. -/
abbrev IsListBy {α : Type} (keyword : Keyword) (item : Rule α) : Rule (List α) :=
  Behind (.keyword keyword) (Behind (.keyword .by) (Separated (.symbol .comma) item))

/-- The clauses of a query in their order. -/
inductive IsSelect {Condition : Type} (condition : Rule Condition) : Rule (Select Condition) where
  | mk {select : Lexeme}
      {words words₁ words₂ words₃ words₄ words₅ words₆ words₇ words₈ words₉ words₁₀ : List Lexeme}
      {distinct : Bool} {items : List SelectItem} {range : Range} {joins : List (Join Condition)}
      {filter having : Option Condition} {groupBy : Option (List Expr)}
      {orderBy : Option (List OrderItem)} {limit offset : Option (Located Nat)}
      (announced : select.token = .keyword .select)
      (skips : Optionally (.keyword .distinct) words₁ distinct)
      (selected : Separated (.symbol .comma) IsSelectItem words₂ items)
      (root : Behind (.keyword .from) IsRange words₃ range)
      (joined : Repeated (IsJoin condition) words₄ joins)
      (filtered : Maybe (Behind (.keyword .where) condition) words₅ filter)
      (grouped : Maybe (IsListBy .group IsExpr) words₆ groupBy)
      (kept : Maybe (Behind (.keyword .having) condition) words₇ having)
      (ordered : Maybe (IsListBy .order IsOrderItem) words₈ orderBy)
      (limited : Maybe (Behind (.keyword .limit) IsCount) words₉ limit)
      (skipped : Maybe (Behind (.keyword .offset) IsCount) words₁₀ offset)
      (whole : words = select :: (words₁ ++ (words₂ ++ (words₃ ++ (words₄ ++ (words₅ ++ (words₆ ++
        (words₇ ++ (words₈ ++ (words₉ ++ words₁₀)))))))))) :
      IsSelect condition words ⟨distinct, items, range, joins, filter, groupBy.getD [], having,
        orderBy.getD [], limit, offset, extent words⟩

/-- What NOT makes of a condition; in front of EXISTS it becomes a part of it. -/
def opposite : Predicate → Predicate
  | .existsIn query false => .existsIn query true
  | other => .not other

mutual

/-- A condition: a disjunction of conjunctions. -/
inductive IsPredicate : Rule Predicate where
  | mk {words : List Lexeme} {operands : List Predicate}
      (chain : Separated (.keyword .or) IsConjunction words operands) :
      IsPredicate words (.anyOf operands)

/-- Conditions with AND between them. -/
inductive IsConjunction : Rule Predicate where
  | mk {words : List Lexeme} {operands : List Predicate}
      (chain : Separated (.keyword .and) IsNegation words operands) :
      IsConjunction words (.allOf operands)

/-- A condition without AND and OR outside of parentheses. -/
inductive IsNegation : Rule Predicate where
  | affirmed {words : List Lexeme} {predicate : Predicate} (holds : IsAtom words predicate) :
      IsNegation words predicate
  | negated {lexeme : Lexeme} {words : List Lexeme} {predicate : Predicate}
      (not : lexeme.token = .keyword .not) (operand : IsNegation words predicate) :
      IsNegation (lexeme :: words) (opposite predicate)

/-- A condition that does not start with NOT either. -/
inductive IsAtom : Rule Predicate where
  | group {words : List Lexeme} {predicate : Predicate}
      (inside : Enclosed IsPredicate words predicate) : IsAtom words (.group predicate)
  | existsIn {lexeme : Lexeme} {words : List Lexeme} {query : Query}
      (announced : lexeme.token = .keyword .exists)
      (inside : Enclosed (IsSelect IsPredicate) words query) :
      IsAtom (lexeme :: words) (.existsIn query false)
  | inQuery {member : Lexeme} {words words' words'' : List Lexeme} {tested : Expr} {query : Query}
      {negated : Bool} (value : IsExpr words tested)
      (opposite : Optionally (.keyword .not) words' negated)
      (announced : member.token = .keyword .in)
      (inside : Enclosed (IsSelect IsPredicate) words'' query) :
      IsAtom (words ++ (words' ++ member :: words'')) (.inQuery tested query negated)
  | test {words words' : List Lexeme} {tested : Expr} {test : Test} (value : IsExpr words tested)
      (holds : IsTest tested words' test) : IsAtom (words ++ words') (.test test)

end

/-- A query with conditions as the grammar has them. -/
abbrev IsQuery : Rule Query := IsSelect IsPredicate

end QueryGuard.Grammar
