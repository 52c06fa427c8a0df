import QueryGuard.Text.Hexadecimal
/-!
Universally unique identifiers of 16 bytes, and their texts in hexadecimal digits.
-/

set_option autoImplicit false

namespace QueryGuard

structure Uuid where
  bytes : List UInt8
  length_eq : bytes.length = 16
deriving DecidableEq, Repr

namespace Uuid

/-- The byte of two characters: two digits, or one after a plus sign. -/
def byte? (high low : Char) : Option UInt8 := do
  let lowDigit ← Text.hexDigit? low
  if high = '+' then return UInt8.ofNat lowDigit
  let highDigit ← Text.hexDigit? high
  return UInt8.ofNat (highDigit * 16 + lowDigit)

/-- The bytes of characters in pairs. -/
def bytes? : List Char → Option (List UInt8)
  | [] => some []
  | [_] => none
  | high :: low :: rest => do return (← byte? high low) :: (← bytes? rest)

/-- The identifier that a text writes, with hyphens anywhere. -/
def parse? (text : String) : Option Uuid := do
  let bytes ← bytes? (text.toList.filter (· ≠ '-'))
  if length_eq : bytes.length = 16 then some ⟨bytes, length_eq⟩ else none

/-- Five groups of digits with hyphens between them, as texts show an identifier. -/
def print (id : Uuid) : List Char :=
  let digits (start stop : Nat) : List Char :=
    (id.bytes.take stop |>.drop start).flatMap fun byte => Text.hexPair byte.toNat
  digits 0 4 ++ '-' :: digits 4 6 ++ '-' :: digits 6 8 ++ '-' :: digits 8 10 ++ '-' :: digits 10 16

def text (id : Uuid) : String := String.ofList id.print

end Uuid

end QueryGuard
