import QueryGuard.Json.Numeral
/-!
Documents as they are written: numbers with all their digits, strings with their escapes, fields
in their order and as often as they occur. A document means a value only if its strings are text,
its numbers are in range and it is not nested too deeply.
-/

set_option autoImplicit false

namespace QueryGuard.Json

/-- One element of a written string. -/
inductive Letter where
  | plain (c : Char)
  /-- A code unit of UTF-16 in hexadecimal digits. -/
  | unit (code : Nat)
deriving DecidableEq, Repr

/-- The text of a written string; units in the surrogate range count in pairs only. -/
def letters? : List Letter → Option (List Char)
  | [] => some []
  | .plain c :: rest => (letters? rest).map (c :: ·)
  | .unit high :: rest =>
      if high < 0xd800 ∨ 0xdfff < high then (letters? rest).map (Char.ofNat high :: ·)
      else
        match rest with
        | .unit low :: rest =>
            if high < 0xdc00 ∧ 0xdc00 ≤ low ∧ low ≤ 0xdfff then
              let code := 0x10000 + (high - 0xd800) * 0x400 + (low - 0xdc00)
              (letters? rest).map (Char.ofNat code :: ·)
            else none
        | _ => none

/-- A document before its strings and numbers are given a meaning. -/
inductive Written where
  | null
  | bool (value : Bool)
  | number (value : Numeral)
  | string (value : List Letter)
  | array (items : List Written)
  | object (fields : List (List Letter × Written))
deriving Inhabited

/-- How deeply arrays and objects may be nested. -/
def nestingLimit : Nat := 127

namespace Written

/-- The text of a string. -/
def string? : Written → Option String
  | .string value => (letters? value).map String.ofList
  | _ => none

def bool? : Written → Option Bool
  | .bool value => some value
  | _ => none

/-- A natural number below `2 ^ 64`. -/
def count? : Written → Option Nat
  | .number value => value.integer?.bind fun n => if 0 ≤ n then some n.toNat else none
  | _ => none

mutual

/-- The value of a document with at most `depth` levels of nesting. -/
def value? (depth : Nat) : Written → Option Json
  | .null => some .null
  | .bool value => some (.bool value)
  | .number value => value.value?
  | .string value => (letters? value).map fun text => .string (String.ofList text)
  | .array items => if depth = 0 then none else (values? (depth - 1) items).map .array
  | .object fields => if depth = 0 then none else (fieldValues? (depth - 1) fields).map ofFields

def values? (depth : Nat) : List Written → Option (List Json)
  | [] => some []
  | item :: items => do return (← item.value? depth) :: (← values? depth items)

def fieldValues? (depth : Nat) : List (List Letter × Written) → Option (List (String × Json))
  | [] => some []
  | (name, value) :: fields => do
      return (String.ofList (← letters? name), ← value.value? depth) ::
        (← fieldValues? depth fields)

end

end Written

end QueryGuard.Json
