import QueryGuard.Number.Binary64
/-!
Decimal numbers, the numbers nearest to them, and their written forms.
-/

set_option autoImplicit false

namespace QueryGuard

/-- The value `coefficient · 10 ^ exponent`. -/
structure Decimal where
  coefficient : Nat
  exponent : Int
deriving DecidableEq, Repr, Inhabited

namespace Decimal

/-- The number that is written with digits before and after a point. -/
def ofDigits (whole fraction : List Char) : Decimal :=
  ⟨Nat.ofDigitChars 10 (whole ++ fraction) 0, -(fraction.length : Int)⟩

/-- The binary number nearest to a decimal one. -/
def nearest (negative : Bool) (x : Decimal) : Binary64 :=
  match x.exponent with
  | .ofNat power => .ofRatio negative (x.coefficient * 10 ^ power) 1
  | .negSucc power => .ofRatio negative x.coefficient (10 ^ (power + 1))

/-- The decimal digits of the coefficient. -/
def digits (x : Decimal) : List Char := Nat.toDigits 10 x.coefficient

/-- Zeros at the end of the coefficient moved into the exponent, at most `count` of them. -/
def trimmedBy : Nat → Decimal → Decimal
  | 0, x => x
  | count + 1, x =>
      if x.coefficient ≠ 0 ∧ x.coefficient % 10 = 0 then
        trimmedBy count ⟨x.coefficient / 10, x.exponent + 1⟩
      else x

/-- The same value with the shortest coefficient. -/
def trimmed (x : Decimal) : Decimal := x.trimmedBy x.digits.length

/-- The number of digits before the point, zero or less if the first digits after it are zeros. -/
def pointPosition (x : Decimal) : Int := x.digits.length + x.exponent

/-- Digits before and after the point, never an exponent. -/
def positional (x : Decimal) : List Char :=
  match x.exponent with
  | .ofNat power => if x.coefficient = 0 then ['0'] else x.digits ++ List.replicate power '0'
  | .negSucc power =>
      let places := power + 1
      let padded := List.replicate (places + 1 - x.digits.length) '0' ++ x.digits
      padded.take (padded.length - places) ++ '.' :: padded.drop (padded.length - places)

/-- One digit before the point, and the power of ten with its sign. -/
def scientific (x : Decimal) : List Char :=
  let power := x.pointPosition - 1
  let sign := if power < 0 then '-' else '+'
  let shown := sign :: Nat.toDigits 10 power.natAbs
  match x.digits with
  | [] => []
  | [digit] => digit :: 'e' :: shown
  | digit :: rest => digit :: '.' :: (rest ++ 'e' :: shown)

end Decimal

end QueryGuard
