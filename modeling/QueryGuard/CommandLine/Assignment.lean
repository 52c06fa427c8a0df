import QueryGuard.Json.Reader
import QueryGuard.Parameter.Value
import QueryGuard.Text.Blank
/-!
Values given as `name=value`.
-/

set_option autoImplicit false

namespace QueryGuard

/-- Why an argument is no assignment. -/
inductive AssignmentError where
  | missingSign (argument : String)
  | missingName (argument : String)
deriving DecidableEq, Repr

def AssignmentError.message : AssignmentError → String
  | missingSign argument => "expected name=value, got '" ++ argument ++ "'"
  | missingName argument => "missing name in '" ++ argument ++ "'"

namespace Assignment

/-- The value of a text: that of the document it writes, or else the text itself. -/
def value (text : String) : Value :=
  match Json.read? text with
  | some document => .ofJson document
  | none => .string text

/-- The name before the first equals sign, and the value after it. -/
def parse (argument : String) : Except AssignmentError (String × Value) :=
  let letters := argument.toList
  match letters.dropWhile (· ≠ '=') with
  | [] => throw (.missingSign argument)
  | _ :: rest =>
      let name := Text.trimmed (String.ofList (letters.takeWhile (· ≠ '=')))
      if name.isEmpty then throw (.missingName argument)
      else return (name, value (String.ofList rest))

end Assignment

end QueryGuard
