import QueryGuard.Number.Decimal
/-!
The shortest decimal number that reads back as a given binary one.

On the grid of the decimals with a given count of digits, the value lies between two neighbours.
The first grid on which one of them reads back wins, and of two that do the nearer one.
-/

set_option autoImplicit false

namespace QueryGuard.Binary64

/-- Which neighbour a value takes that lies in the middle of two. -/
inductive Tie where
  | up
  | toEven
deriving DecidableEq, Repr

namespace Finite

/-- A power of ten that turns every number but zero into an integer of many digits. -/
def stretch : Nat := 400

/-- The whole part of the absolute value times `10 ^ stretch`. -/
def stretched (x : Finite) : Nat := x.magnitude * 10 ^ stretch / 2 ^ 1074

/-- The absolute value with all its digits. -/
def exactly (x : Finite) : Decimal := ⟨x.magnitude * 5 ^ 1074, -1074⟩

/-- Whether a decimal has this number as its nearest one. -/
def readsBack (x : Finite) (candidate : Decimal) : Bool :=
  candidate.nearest x.negative == .finite x

/-- Whether `low + 1` is to be preferred to `low` on the grid of step `10 ^ drop`, with both
counted in units of `10 ^ -stretch`. -/
def prefersUpper (x : Finite) (tie : Tie) (low drop : Nat) : Bool :=
  let value := 2 * (x.magnitude * 10 ^ stretch)
  let middle := (2 * low + 1) * 10 ^ drop * 2 ^ 1074
  match tie with
  | .up => middle ≤ value
  | .toEven => middle < value || (middle == value && low % 2 == 1)

/-- The preferred decimal with `count` digits, if one reads back. -/
def withDigits? (x : Finite) (tie : Tie) (count : Nat) : Option Decimal :=
  let drop := (Nat.toDigits 10 x.stretched).length - count
  let low := x.stretched / 10 ^ drop
  let exponent := (drop : Int) - stretch
  let lower : Decimal := ⟨low, exponent⟩
  let upper : Decimal := ⟨low + 1, exponent⟩
  let (first, second) := if x.prefersUpper tie low drop then (upper, lower) else (lower, upper)
  if x.readsBack first then some first
  else if x.readsBack second then some second
  else none

/-- The shortest decimal that reads back, without zeros at its end. -/
def shortest (x : Finite) (tie : Tie) : Decimal :=
  if x.significand = 0 then ⟨0, 0⟩
  else
    match (List.range' 1 17).findSome? (x.withDigits? tie) with
    | some found => found.trimmed
    | none => x.exactly

end Finite

end QueryGuard.Binary64
