import QueryGuard.Json.Value
import QueryGuard.Number.Decimal
/-!
Numbers as they are written in JSON documents, and the values they stand for.

An integer that fits 64 bits stands for itself. Any other number is read in floating point from
its leading digits, as many as fit 64 bits, times or divided by a power of ten.
-/

set_option autoImplicit false

namespace QueryGuard.Json

/-- A written number: sign, digits before and after the point, power of ten. -/
structure Numeral where
  negative : Bool
  whole : List Char
  fraction : List Char
  power : Option Int
deriving DecidableEq, Repr

namespace Numeral

/-- The largest number that leading digits may form. -/
def significandLimit : Nat := 2 ^ 64

/-- Appends digits to a number while it stays below the limit; the rest is returned. -/
def absorb (significand : Nat) : List Char → Nat × List Char
  | [] => (significand, [])
  | digit :: rest =>
      let longer := significand * 10 + (digit.toNat - '0'.toNat)
      if longer < significandLimit then absorb longer rest else (significand, digit :: rest)

/-- The power of ten nearest to `10 ^ power`, for powers that have one. -/
def powerOfTen (power : Nat) : Binary64 := .ofNat (10 ^ power)

/-- The largest power of ten with a nearest number. -/
def largestPower : Nat := 308

/-- The number times `10 ^ power`; nothing if that is too large. -/
def raised (x : Binary64.Finite) (power : Nat) : Option Binary64.Finite :=
  if power ≤ largestPower then
    match powerOfTen power with
    | .finite factor =>
        match x.mul factor with
        | .finite product => some product
        | _ => none
    | _ => none
  else if x.significand = 0 then some x
  else none

/-- The number divided by `10 ^ power`, in steps of the largest power. -/
def lowered (x : Binary64.Finite) (power : Nat) : Option Binary64.Finite :=
  if power ≤ largestPower then step power
  else if x.significand = 0 then some x
  else do lowered (← step largestPower) (power - largestPower)
termination_by power
decreasing_by simp only [largestPower] at *; omega
where
  /-- One division. -/
  step (amount : Nat) : Option Binary64.Finite :=
    match powerOfTen amount with
    | .finite divisor =>
        match x.div divisor with
        | .finite quotient => some quotient
        | _ => none
    | _ => none

/-- The number in floating point; nothing if it is too large. -/
def float? (x : Numeral) : Option Binary64.Finite :=
  let (leading, dropped) := absorb 0 x.whole
  let (significand, unused) := absorb leading x.fraction
  let power : Int := x.power.getD 0 + dropped.length - (x.fraction.length - unused.length : Nat)
  let scaled : Option Binary64.Finite :=
    match Binary64.ofNat significand with
    | .finite start =>
        match power with
        | .ofNat power => raised start power
        | .negSucc power => lowered start (power + 1)
    | _ => none
  scaled.map fun value => { value with negative := x.negative }

/-- The integer, if the number is written as one and fits 64 bits. Negative zero is none. -/
def integer? (x : Numeral) : Option Int :=
  if x.fraction = [] ∧ x.power = none then
    let magnitude := Nat.ofDigitChars 10 x.whole 0
    if x.negative then
      if 0 < magnitude ∧ magnitude ≤ 2 ^ 63 then some (-(magnitude : Int)) else none
    else if magnitude < 2 ^ 64 then some (magnitude : Int) else none
  else none

/-- The value of the number; nothing if it is too large. -/
def value? (x : Numeral) : Option Json :=
  match x.integer? with
  | some value => some (.integer value)
  | none => x.float?.map .float

end Numeral

end QueryGuard.Json
