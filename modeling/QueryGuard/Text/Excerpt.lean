import QueryGuard.Text.Position
import QueryGuard.Text.Span
/-!
Messages that point into a source text: the line concerned, with a caret under the place.
-/

set_option autoImplicit false

namespace QueryGuard.Text

/-- A number in at least three columns. -/
def inThreeColumns (number : Nat) : String :=
  let digits := toString number
  String.ofList (List.replicate (3 - digits.length) ' ') ++ digits

/-- The caret under column `column` of `line`, and a tail under the rest of `length` bytes as far
as the line goes. -/
def underline (line : List Char) (column length : Nat) : String :=
  let tail := min length (line.length - column + 1) - 1
  "   |" ++ String.ofList (List.replicate column ' ') ++ "^" ++
    String.ofList (List.replicate tail '~') ++ "\n"

/-- The source line at a position with its caret; nothing for a line the source does not have. -/
def markedLine (source : String) (position : Position) (length : Nat) : String :=
  match (lines source.toList)[position.line - 1]? with
  | none => ""
  | some line =>
      "   |\n" ++ inThreeColumns position.line ++ "| " ++ String.ofList line ++ "\n" ++
        underline line position.column length

/-- An error report: the message, and for a place in the source its position, its line and the
hint. -/
def excerpt (message : String) (span : Span) (hint : Option String) (source : String) : String :=
  let headline := "error: " ++ message ++ "\n"
  match span with
  | .synthetic => headline
  | .between start stop =>
      let position := Position.of source start
      headline ++
        "  --> line " ++ toString position.line ++ ":" ++ toString position.column ++ "\n" ++
        markedLine source position (stop - start) ++
        match hint with
        | none => ""
        | some advice => "   = hint: " ++ advice ++ "\n"

end QueryGuard.Text
