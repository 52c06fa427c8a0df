import QueryGuard.Syntax.Error
/-!
Reading a list of lexemes from left to right, with the steps that all constructs share.
-/

set_option autoImplicit false

namespace QueryGuard

/-- The lexemes still to be read, with the place of the last one read and the end of the source. -/
structure Cursor where
  previous : Span
  rest : List Lexeme
  finish : Nat
deriving DecidableEq, Repr

/-- A step that reads lexemes or fails. -/
abbrev Parse (α : Type) := StateT Cursor (Except SyntaxError) α

namespace Cursor

/-- The place of the next lexeme, or the end of the source. -/
def span (cursor : Cursor) : Span :=
  match cursor.rest with
  | lexeme :: _ => lexeme.span
  | [] => .point cursor.finish

/-- The next token, if there is one. -/
def token? (cursor : Cursor) : Option Token := cursor.rest.head?.map (·.token)

def found (cursor : Cursor) : Found :=
  match cursor.rest with
  | lexeme :: _ => .token lexeme.token
  | [] => .endOfInput

/-- The cursor behind the next lexeme. -/
def next (cursor : Cursor) : Cursor :=
  match cursor.rest with
  | lexeme :: rest => ⟨lexeme.span, rest, cursor.finish⟩
  | [] => cursor

end Cursor

namespace Parse

variable {α : Type}

/-- The failure to find what the grammar allows here. -/
def fail (expected : Expectation) (hint : Option Hint := none) : Parse α :=
  fun cursor => .error (.unexpected expected cursor.found cursor.span hint)

/-- The next token, which is not read yet. -/
def peek? : Parse (Option Token) := do return (← get).token?

/-- The place of the next lexeme. -/
def here : Parse Span := do return (← get).span

/-- The place of the last lexeme read. -/
def last : Parse Span := do return (← get).previous

/-- Reads on past the next lexeme. -/
def skip : Parse Unit := modify Cursor.next

/-- Reads a token if it comes next, and says whether it did. -/
def accept (token : Token) : Parse Bool := do
  if (← peek?) = some token then
    skip
    return true
  else return false

/-- Reads a token that has to come next, and returns its place. -/
def expect (token : Token) (expected : Expectation) : Parse Span := do
  let span ← here
  if ← accept token then return span else fail expected

def acceptKeyword (keyword : Keyword) : Parse Bool := accept (.keyword keyword)

def expectKeyword (keyword : Keyword) : Parse Span := expect (.keyword keyword) (.keyword keyword)

def closeParen : Parse Span := expect (.symbol .closeParen) .closeParen

/-- The name that a lexeme spells, if it is no reserved word. -/
def nameOf? (lexeme : Lexeme) : Option Name :=
  match lexeme.token with
  | .name text | .quotedName text => some ⟨text, lexeme.span⟩
  | _ => none

/-- The name that a lexeme spells; reserved words stand for themselves as they are written. -/
def wordOf? (lexeme : Lexeme) : Option Name :=
  match lexeme.token with
  | .keyword _ => some ⟨lexeme.text, lexeme.span⟩
  | _ => nameOf? lexeme

/-- Reads a name, and tells how to quote a reserved word that stands in its place. -/
def name (expected : Expectation) : Parse Name := fun cursor =>
  match cursor.rest with
  | lexeme :: _ =>
      match nameOf? lexeme with
      | some name => .ok (name, cursor.next)
      | none =>
          fail expected (lexeme.token.keyword?.map fun _ => .reserved lexeme.text) cursor
  | [] => fail expected none cursor

/-- Reads a name or a reserved word. -/
def word (expected : Expectation) : Parse Name := fun cursor =>
  match cursor.rest.head?.bind wordOf? with
  | some name => .ok (name, cursor.next)
  | none => fail expected none cursor

/-- Reads further items, each after a separator; the bound is at least the number of lexemes. -/
def more (separator : Token) (item : Parse α) : Nat → Parse (List α)
  | 0 => return []
  | bound + 1 => do
      if ← accept separator then
        let first ← item
        let others ← more separator item bound
        return first :: others
      else return []

/-- Reads items, each after a separator. -/
def following (separator : Token) (item : Parse α) : Parse (List α) := do
  more separator item (← get).rest.length

/-- Reads one item or several with separators between them. -/
def separated (separator : Token) (item : Parse α) : Parse (List α) := do
  let first ← item
  let others ← following separator item
  return first :: others

/-- Reads one item or several with commas between them. -/
def commaList (item : Parse α) : Parse (List α) := separated (.symbol .comma) item

/-- Reads a construct that a keyword announces, if it does. -/
def clause? (keyword : Keyword) (body : Parse α) : Parse (Option α) := do
  if ← acceptKeyword keyword then
    let value ← body
    return some value
  else return none

/-- Reads nothing at the end of the lexemes. -/
def finish (expected : Expectation) : Parse Unit := do
  if (← peek?).isSome then fail expected

/-- What a step reads from all lexemes of a source that ends at the given offset. -/
def readAll (step : Parse α) (expected : Expectation) (lexemes : List Lexeme) (stop : Nat) :
    Except SyntaxError α :=
  let whole : Parse α := do
    let value ← step
    finish expected
    return value
  (whole ⟨.point 0, lexemes, stop⟩).map (·.1)

theorem readAll_ok {step : Parse α} {expected : Expectation} {lexemes : List Lexeme} {stop : Nat}
    {value : α} :
    step.readAll expected lexemes stop = .ok value ↔
      ∃ after, (do
        let value ← step
        finish expected
        return value : Parse α) ⟨.point 0, lexemes, stop⟩ = .ok (value, after) := by
  have mapped : ∀ outcome : Except SyntaxError (α × Cursor),
      outcome.map (·.1) = .ok value ↔ ∃ after, outcome = .ok (value, after) := by
    intro outcome
    cases outcome <;> simp [Except.map, Prod.ext_iff]
  exact mapped _

/-- What a step reads from the whole of a source. -/
def run (step : Parse α) (expected : Expectation) (source : String) : Except SyntaxError α :=
  match tokenize source with
  | .error error => .error (.lexical error)
  | .ok lexemes => step.readAll expected lexemes source.utf8ByteSize

end Parse

end QueryGuard
