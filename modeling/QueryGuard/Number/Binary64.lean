/-!
Binary floating point numbers of 64 bits: exact values, rounding of fractions to the nearest
number, and the arithmetic that follows from it.
-/

set_option autoImplicit false

-- Powers are the core ones, whatever else is in sight.
attribute [default_instance high] instPowNat

namespace QueryGuard

/-- The powers of natural numbers. -/
instance natPow : Pow Nat Nat := instPowNat

namespace Binary64

/-- A finite number, of the value `± significand · 2 ^ (scale - 1074)`. Only the smallest scale
allows a leading bit below the top, so each value but zero has one form. -/
structure Finite where
  negative : Bool
  significand : Nat
  scale : Nat
  significand_lt : significand < 2 ^ 53
  scale_le : scale ≤ 2045
  normalized : scale = 0 ∨ 2 ^ 52 ≤ significand
deriving DecidableEq, Repr

/-- The absolute value, in units of `2 ^ -1074`. -/
def Finite.magnitude (x : Finite) : Nat := x.significand * 2 ^ x.scale

end Binary64

/-- A number, an infinity, or the result that is no number. -/
inductive Binary64 where
  | nan
  | infinite (negative : Bool)
  | finite (value : Binary64.Finite)
deriving DecidableEq, Repr

namespace Binary64

/-- The integer nearest to `num / den`; a tie goes to the even one. -/
def roundEven (num den : Nat) : Nat :=
  let quotient := num / den
  let twice := 2 * (num % den)
  if twice < den then quotient
  else if twice = den then quotient + quotient % 2
  else quotient + 1

/-- The finite number of the given parts; infinity if the scale is out of range. -/
def ofParts (negative : Bool) (significand scale : Nat) : Binary64 :=
  if parts : significand < 2 ^ 53 ∧ scale ≤ 2045 ∧ (scale = 0 ∨ 2 ^ 52 ≤ significand) then
    .finite ⟨negative, significand, scale, parts.1, parts.2.1, parts.2.2⟩
  else .infinite negative

/-- The scale at which `num / den` has 53 binary digits, or the smallest one. -/
def scaleOf (num den : Nat) : Nat := (num * 2 ^ 1074 / den).log2 - 52

/-- The number nearest to `± num / den`; a tie goes to the even significand. -/
def ofRatio (negative : Bool) (num den : Nat) : Binary64 :=
  let scale := scaleOf num den
  let significand := roundEven (num * 2 ^ 1074) (den * 2 ^ scale)
  if significand = 2 ^ 53 then ofParts negative (2 ^ 52) (scale + 1)
  else ofParts negative significand scale

/-- The number nearest to a natural number. -/
def ofNat (n : Nat) : Binary64 := ofRatio false n 1

def zero : Binary64 := ofNat 0

def isNegative : Binary64 → Bool
  | .nan => false
  | .infinite negative => negative
  | .finite x => x.negative

def neg : Binary64 → Binary64
  | .nan => .nan
  | .infinite negative => .infinite (!negative)
  | .finite x => .finite { x with negative := !x.negative }

/-- Whether the value is zero, of either sign. -/
def isZero : Binary64 → Bool
  | .finite x => x.significand == 0
  | _ => false

/-- Equality of values: the zeros are equal, and no value equals the one that is no number. -/
def same : Binary64 → Binary64 → Bool
  | .finite x, .finite y =>
      (x.significand == 0 && y.significand == 0) ||
        (x.negative == y.negative && x.significand == y.significand && x.scale == y.scale)
  | .infinite x, .infinite y => x == y
  | _, _ => false

/-- The rounded product of two finite numbers. -/
def Finite.mul (x y : Finite) : Binary64 :=
  ofRatio (x.negative != y.negative) (x.magnitude * y.magnitude) (2 ^ 2148)

/-- The rounded quotient of two finite numbers; the divisor is not zero. -/
def Finite.div (x y : Finite) : Binary64 :=
  ofRatio (x.negative != y.negative) x.magnitude y.magnitude

theorem neg_neg (x : Binary64) : x.neg.neg = x := by
  cases x <;> simp [neg]

/-- Equal values are the same number unless one is no number. -/
theorem same_self {x : Binary64} (number : x ≠ .nan) : x.same x = true := by
  cases x <;> simp_all [same]

theorem nan_same (x : Binary64) : nan.same x = false := by
  cases x <;> rfl

end Binary64

end QueryGuard
