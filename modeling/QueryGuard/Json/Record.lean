import QueryGuard.Json.Syntax
/-!
Records and variants in documents. A record is an object of its fields, or the array of their
values in the order of declaration. A variant is its name, or an object with its name as the only
field.
-/

set_option autoImplicit false

namespace QueryGuard.Json

/-- The values written for the fields of a record. -/
abbrev Record := List (String × Written)

namespace Record

/-- A field that has to be there. -/
def required {α : Type} (record : Record) (name : String) (decode : Written → Option α) :
    Option α :=
  (record.lookup name).bind decode

/-- A field that may be left out. -/
def optional {α : Type} (record : Record) (name : String) (default : α)
    (decode : Written → Option α) : Option α :=
  match record.lookup name with
  | some value => decode value
  | none => some default

end Record

namespace Written

/-- The known fields of an object; other fields are passed over, and a known one that occurs twice
is an error. -/
def knownFields? (names : List String) : List (List Letter × Written) → Option Record
  | [] => some []
  | (name, value) :: rest => do
      let name := String.ofList (← letters? name)
      let record ← knownFields? names rest
      if name ∈ names then
        if (record.lookup name).isSome then none else some ((name, value) :: record)
      else some record

/-- The record with the given fields. -/
def record? (names : List String) : Written → Option Record
  | .object fields => knownFields? names fields
  | .array items => if items.length ≤ names.length then some (names.zip items) else none
  | _ => none

/-- The variant and what is written with it. -/
def variant? : Written → Option (String × Option Written)
  | .string name => (letters? name).map fun name => (String.ofList name, none)
  | .object [(name, value)] => (letters? name).map fun name => (String.ofList name, some value)
  | _ => none

/-- A variant that nothing is written with. -/
def unitVariant? (value : Written) : Option String :=
  match value.variant? with
  | some (name, none) => some name
  | some (name, some .null) => some name
  | _ => none

/-- A value or null. -/
def nullable? {α : Type} (decode : Written → Option α) : Written → Option (Option α)
  | .null => some none
  | value => (decode value).map some

def list? {α : Type} (decode : Written → Option α) : Written → Option (List α)
  | .array items => items.mapM decode
  | _ => none

end Written

end QueryGuard.Json
