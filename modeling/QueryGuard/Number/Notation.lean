import QueryGuard.Number.Shortest
/-!
Texts of binary numbers: positional for people and queries, and the notation of JSON.
-/

set_option autoImplicit false

namespace QueryGuard.Binary64

def signed (negative : Bool) (text : List Char) : List Char :=
  if negative then '-' :: text else text

/-- The shortest digits that read back, without exponent; whole values have no point. -/
def text : Binary64 → List Char
  | .nan => "NaN".toList
  | .infinite negative => signed negative "inf".toList
  | .finite x => signed x.negative (x.shortest .up).positional

/-- The same with a fractional part even for whole values. -/
def pointedText (x : Binary64) : List Char :=
  let shown := x.text
  if '.' ∈ shown then shown else shown ++ ".0".toList

/-- The text in a JSON document: positional with a point between `1e-5` and `1e16`, otherwise one
digit before the point and a signed exponent. -/
def Finite.jsonText (x : Finite) : List Char :=
  let decimal := x.shortest .toEven
  let position := decimal.pointPosition
  signed x.negative <|
    if decimal.coefficient = 0 then "0.0".toList
    else if 16 < position || position ≤ -5 then decimal.scientific
    else if decimal.exponent < 0 then decimal.positional
    else decimal.positional ++ ".0".toList

end QueryGuard.Binary64
