import QueryGuard.Number.Binary64
/-!
Values of JSON documents.
-/

set_option autoImplicit false

namespace QueryGuard

/-- A value of a document. An object lists its fields by name. -/
inductive Json where
  | null
  | bool (value : Bool)
  | integer (value : Int)
  | float (value : Binary64.Finite)
  | string (value : String)
  | array (items : List Json)
  | object (fields : List (String × Json))
deriving Inhabited

namespace Json

/-- Puts a field among fields in the order of their names, in the place of one of its name. -/
def insertField (name : String) (value : Json) : List (String × Json) → List (String × Json)
  | [] => [(name, value)]
  | (other, kept) :: rest =>
      if name = other then (name, value) :: rest
      else if name < other then (name, value) :: (other, kept) :: rest
      else (other, kept) :: insertField name value rest

/-- The object of the given fields; the last of one name counts. -/
def ofFields (fields : List (String × Json)) : Json :=
  .object (fields.foldl (fun sorted (name, value) => insertField name value sorted) [])

/-- The number as a value; only finite ones are numbers of a document. -/
def ofBinary64 : Binary64 → Json
  | .finite x => .float x
  | _ => .null

end Json

end QueryGuard
