import QueryGuard.Catalog.ScalarType
import QueryGuard.Json.Text
import QueryGuard.Parameter.Uuid
import QueryGuard.Syntax.Tree
import QueryGuard.Text.Quoted
/-!
Values of parameters.
-/

set_option autoImplicit false

namespace QueryGuard

/-- A value that a parameter stands for. Timestamps count microseconds. -/
inductive Value where
  | null
  | bool (value : Bool)
  | int32 (value : Int32)
  | int64 (value : Int64)
  | float64 (value : Binary64)
  | string (value : String)
  | timestamp (value : Int64)
  | uuid (value : Uuid)
  | list (items : List Value)
deriving Inhabited, Repr

namespace Value

/-- The type of a simple value. -/
def scalarType? : Value → Option ScalarType
  | null | list _ => none
  | bool _ => some .bool
  | int32 _ => some .int32
  | int64 _ => some .int64
  | float64 _ => some .float64
  | string _ => some .string
  | timestamp _ => some .timestamp
  | uuid _ => some .uuid

def typeName : Value → String
  | null => "null"
  | list _ => "list"
  | bool _ => "bool"
  | int32 _ => "int32"
  | int64 _ => "int64"
  | float64 _ => "float64"
  | string _ => "string"
  | timestamp _ => "timestamp"
  | uuid _ => "uuid"

def isNull : Value → Bool
  | null => true
  | _ => false

def string? : Value → Option String
  | string text => some text
  | _ => none

def integer? : Value → Option Int64
  | int32 value => some value.toInt64
  | int64 value => some value
  | _ => none

mutual

/-- Equality of values; numbers are compared by their values, so one that is no number differs
from itself. -/
def same : Value → Value → Bool
  | null, null => true
  | bool first, bool second => first == second
  | int32 first, int32 second => first == second
  | int64 first, int64 second => first == second
  | float64 first, float64 second => first.same second
  | string first, string second => first == second
  | timestamp first, timestamp second => first == second
  | uuid first, uuid second => first == second
  | list first, list second => sameAll first second
  | _, _ => false

/-- Equality of lists, item by item. -/
def sameAll : List Value → List Value → Bool
  | [], [] => true
  | first :: firsts, second :: seconds => first.same second && sameAll firsts seconds
  | _, _ => false

end

/-- The value of a constant in a query. -/
def ofLiteral : Literal → Value
  | .null => null
  | .bool value => bool value
  | .integer value => int64 value
  | .decimal value => float64 value
  | .string value => string value

mutual

/-- The value of a document. Integers that do not fit are read as floating point numbers, and
objects as their text. -/
def ofJson : Json → Value
  | .null => null
  | .bool value => bool value
  | .integer value =>
      if -2 ^ 63 ≤ value ∧ value < 2 ^ 63 then int64 (Int64.ofInt value)
      else float64 (.ofRatio (value < 0) value.natAbs 1)
  | .float value => float64 (.finite value)
  | .string value => string value
  | .array items => list (ofJsonAll items)
  | .object fields => string (Json.object fields).text

def ofJsonAll : List Json → List Value
  | [] => []
  | item :: items => ofJson item :: ofJsonAll items

end

mutual

/-- The value as a document. -/
def toJson : Value → Json
  | null => .null
  | bool value => .bool value
  | int32 value => .integer value.toInt
  | int64 value => .integer value.toInt
  | float64 value => .ofBinary64 value
  | string value => .string value
  | timestamp value => .integer value.toInt
  | uuid value => .string value.text
  | list items => .array (toJsonAll items)

def toJsonAll : List Value → List Json
  | [] => []
  | item :: items => item.toJson :: toJsonAll items

end

mutual

/-- The value for a reader. -/
def print : Value → List Char
  | null => "null".toList
  | bool value => (toString value).toList
  | int32 value => (toString value.toInt).toList
  | int64 value => (toString value.toInt).toList
  | float64 value => value.text
  | string value => Text.quoted '\'' value.toList
  | timestamp value => "timestamp(".toList ++ (toString value.toInt).toList ++ [')']
  | uuid value => value.print
  | list [] => "[]".toList
  | list (item :: items) => '[' :: (item.print ++ printItems items)

/-- The items after the first and the closing bracket. -/
def printItems : List Value → List Char
  | [] => [']']
  | item :: items => ',' :: ' ' :: (item.print ++ printItems items)

end

def text (value : Value) : String := String.ofList value.print

end Value

end QueryGuard
