import QueryGuard.Number.Notation
import QueryGuard.Syntax.Keyword
import QueryGuard.Text.Span
/-!
Tokens of the query language, and the pieces of a source text they come from.
-/

set_option autoImplicit false

namespace QueryGuard

/-- Operators and punctuation. -/
inductive Symbol where
  | equal | notEqual | less | lessEqual | greater | greaterEqual | minus
  | dot | comma | openParen | closeParen
deriving DecidableEq, Repr

/-- The symbol as it is printed. -/
def Symbol.spelling : Symbol → String
  | equal => "="
  | notEqual => "<>"
  | less => "<"
  | lessEqual => "<="
  | greater => ">"
  | greaterEqual => ">="
  | minus => "-"
  | dot => "."
  | comma => ","
  | openParen => "("
  | closeParen => ")"

/-- A word of the language. -/
inductive Token where
  | keyword (keyword : Keyword)
  | name (text : String)
  | quotedName (text : String)
  | parameter (name : String)
  | string (text : String)
  | integer (value : Nat)
  | decimal (value : Binary64)
  | symbol (symbol : Symbol)
deriving DecidableEq, Repr

/-- Coarse classes of tokens. -/
inductive TokenKind where
  | keyword | identifier | parameter | literal | operator | punctuation
deriving DecidableEq, Repr

namespace Token

def kind : Token → TokenKind
  | .keyword _ => .keyword
  | .name _ | .quotedName _ => .identifier
  | .parameter _ => .parameter
  | .string _ | .integer _ | .decimal _ => .literal
  | .symbol .dot | .symbol .comma | .symbol .openParen | .symbol .closeParen => .punctuation
  | .symbol _ => .operator

def keyword? : Token → Option Keyword
  | .keyword word => some word
  | _ => none

/-- How error messages call the token. -/
def description : Token → String
  | .keyword word => "keyword '" ++ word.capitals ++ "'"
  | .name text | .quotedName text => "identifier '" ++ text ++ "'"
  | .parameter text => "parameter ':" ++ text ++ "'"
  | .string text => "string '" ++ text ++ "'"
  | .integer value => "number " ++ toString value
  | .decimal value => "number " ++ String.ofList value.text
  | .symbol sign => "'" ++ sign.spelling ++ "'"

end Token

/-- A token with the text that it was written as and the place of that text. -/
structure Lexeme where
  token : Token
  text : String
  span : Span
deriving DecidableEq, Repr

end QueryGuard
