/-!
The types of simple values.
-/

set_option autoImplicit false

namespace QueryGuard

/-- What a simple attribute holds. -/
inductive ScalarType where
  | bool | int32 | int64 | float64 | decimal | string | timestamp | uuid
deriving DecidableEq, Repr

namespace ScalarType

def all : List ScalarType := [bool, int32, int64, float64, decimal, string, timestamp, uuid]

def spelling : ScalarType → String
  | bool => "bool"
  | int32 => "int32"
  | int64 => "int64"
  | float64 => "float64"
  | decimal => "decimal"
  | string => "string"
  | timestamp => "timestamp"
  | uuid => "uuid"

def ofSpelling? (text : String) : Option ScalarType := all.find? (·.spelling == text)

/-- Whether values of the type are ordered as numbers. -/
def isNumeric : ScalarType → Bool
  | int32 | int64 | float64 | decimal => true
  | bool | string | timestamp | uuid => false

theorem ofSpelling?_spelling (type : ScalarType) : ofSpelling? type.spelling = some type := by
  cases type <;> decide

end ScalarType

end QueryGuard
