import QueryGuard.Json.Value
import QueryGuard.Number.Notation
import QueryGuard.Text.Hexadecimal
/-!
JSON documents as text, on one line or indented.
-/

set_option autoImplicit false

namespace QueryGuard.Json

/-- A character inside a string: quotes, backslashes and control characters are escaped. -/
def escaped (c : Char) : List Char :=
  match c with
  | '"' => ['\\', '"']
  | '\\' => ['\\', '\\']
  | '\n' => ['\\', 'n']
  | '\r' => ['\\', 'r']
  | '\t' => ['\\', 't']
  | '\x08' => ['\\', 'b']
  | '\x0c' => ['\\', 'f']
  | c => if c.toNat < 0x20 then "\\u00".toList ++ Text.hexPair c.toNat else [c]

/-- A string between its quotes. -/
def stringText (value : String) : List Char := '"' :: (value.toList.flatMap escaped ++ ['"'])

mutual

/-- The document on one line without spaces. -/
def compact : Json → List Char
  | .null => "null".toList
  | .bool value => (toString value).toList
  | .integer value => (toString value).toList
  | .float value => value.jsonText
  | .string value => stringText value
  | .array [] => "[]".toList
  | .array (item :: items) => '[' :: (item.compact ++ compactItems items)
  | .object [] => ['\x7b', '\x7d']
  | .object ((name, value) :: fields) =>
      '\x7b' :: (stringText name ++ ':' :: (value.compact ++ compactFields fields))

/-- The items after the first and the closing bracket. -/
def compactItems : List Json → List Char
  | [] => [']']
  | item :: items => ',' :: (item.compact ++ compactItems items)

/-- The fields after the first and the closing brace. -/
def compactFields : List (String × Json) → List Char
  | [] => ['\x7d']
  | (name, value) :: fields =>
      ',' :: (stringText name ++ ':' :: (value.compact ++ compactFields fields))

end

/-- A line end and two spaces for each level. -/
def newLine (level : Nat) : List Char := '\n' :: List.replicate (2 * level) ' '

mutual

/-- The document with each item and each field on a line of its own. -/
def indented (level : Nat) : Json → List Char
  | .array (item :: items) =>
      '[' :: (newLine (level + 1) ++ (item.indented (level + 1) ++ indentedItems level items))
  | .object ((name, value) :: fields) =>
      '\x7b' :: (newLine (level + 1) ++ (stringText name ++ ':' :: ' ' ::
        (value.indented (level + 1) ++ indentedFields level fields)))
  | simple => simple.compact

/-- The items after the first and the closing bracket, indented. -/
def indentedItems (level : Nat) : List Json → List Char
  | [] => newLine level ++ [']']
  | item :: items =>
      ',' :: (newLine (level + 1) ++ (item.indented (level + 1) ++ indentedItems level items))

/-- The fields after the first and the closing brace, indented. -/
def indentedFields (level : Nat) : List (String × Json) → List Char
  | [] => newLine level ++ ['\x7d']
  | (name, value) :: fields =>
      ',' :: (newLine (level + 1) ++ (stringText name ++ ':' :: ' ' ::
        (value.indented (level + 1) ++ indentedFields level fields)))

end

/-- The document on one line. -/
def text (document : Json) : String := String.ofList document.compact

/-- The document over several lines. -/
def prettyText (document : Json) : String := String.ofList (document.indented 0)

end QueryGuard.Json
