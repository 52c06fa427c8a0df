import QueryGuard.Syntax.Lexing
import QueryGuard.Syntax.Tree
import QueryGuard.Text.Excerpt
/-!
What can be wrong with the text of a query, and how it is reported.
-/

set_option autoImplicit false

namespace QueryGuard

/-- What the grammar allows at a place. -/
inductive Expectation where
  | keyword (keyword : Keyword)
  | closeParen
  | openParenAfterExists
  | sourceAfterIn
  | label
  | rangeAlias
  | joinAlias
  | entityName
  | joinTarget
  | attributeName
  | count (clause : Keyword)
  | comparison
  | negatableTest
  | escapeCharacter
  | expression
  | numberAfterMinus
  | oneArgument
  | argument
  | endOfQuery
  | endOfPath
deriving DecidableEq, Repr

def Expectation.description : Expectation → String
  | keyword word => word.capitals
  | closeParen => "')'"
  | openParenAfterExists => "'(' after EXISTS"
  | sourceAfterIn => "'(' or parameter after IN"
  | label => "alias"
  | rangeAlias => "range alias"
  | joinAlias => "join alias"
  | entityName => "entity name"
  | joinTarget => "join target"
  | attributeName => "attribute name"
  | count clause => "non-negative integer after " ++ clause.capitals
  | comparison => "comparison operator"
  | negatableTest => "IN, BETWEEN or LIKE"
  | escapeCharacter => "escape character"
  | expression => "expression"
  | numberAfterMinus => "number after '-'"
  | oneArgument => "exactly one argument"
  | argument => "argument"
  | endOfQuery => "end of query"
  | endOfPath => "end of path"

/-- What stands there instead. -/
inductive Found where
  | token (token : Token)
  | endOfInput
  | arguments (count : Nat)
deriving DecidableEq, Repr

def Found.description : Found → String
  | .token found => found.description
  | .endOfInput => "end of input"
  | .arguments count => toString count ++ " arguments"

/-- Advice that goes with an error. -/
inductive Hint where
  | equality
  | rangeAlias
  | reserved (text : String)
  | joinCondition (entity : String)
  | singleExpression (function : Aggregate)
  | distinctCall
deriving DecidableEq, Repr

def Hint.advice : Hint → String
  | equality => "use '=' for equality comparison"
  | rangeAlias => "every range needs an alias, e.g. 'from Customer c'"
  | reserved text =>
      "'" ++ text ++ "' is reserved; quote it as \"" ++ text ++ "\" to use it as a name"
  | joinCondition entity => "a join to entity '" ++ entity ++ "' needs an ON condition"
  | singleExpression function => function.spelling ++ " takes a single expression"
  | distinctCall => "DISTINCT is only allowed inside aggregate calls"

/-- Why a text is no query. -/
inductive SyntaxError where
  | lexical (error : LexicalError)
  | unexpected (expected : Expectation) (found : Found) (span : Span) (hint : Option Hint)
  | tooDeep (limit : Nat) (span : Span)
deriving DecidableEq, Repr

namespace SyntaxError

def span : SyntaxError → Span
  | .lexical error => error.span
  | .unexpected _ _ place _ => place
  | .tooDeep _ place => place

/-- What nesting beyond the limit is called. -/
def deepConstruct (limit : Nat) : String :=
  "subquery nested more than " ++ toString limit ++ " level(s) deep"

def message : SyntaxError → String
  | .lexical error => "lex error: " ++ error.fault.message
  | .unexpected expected found _ _ =>
      "parse error: expected " ++ expected.description ++ ", found " ++ found.description
  | .tooDeep limit _ => "unsupported construct: " ++ deepConstruct limit

def advice? : SyntaxError → Option String
  | .unexpected _ _ _ hint => hint.map Hint.advice
  | _ => none

/-- The report of the error with the line of the source it stands in. -/
def report (error : SyntaxError) (source : String) : String :=
  Text.excerpt error.message error.span error.advice? source

end SyntaxError

end QueryGuard
