/-!
Aliases that are not in use yet.
-/

set_option autoImplicit false

namespace QueryGuard.FreshAlias

/-- The alias without the digits at its end, or the alias itself if nothing else is in it. -/
def stem (name : String) : String :=
  let letters := (name.toList.reverse.dropWhile Char.isDigit).reverse
  if letters.isEmpty then name else String.ofList letters

/-- The alias with a number in the place of the digits at its end. -/
def numbered (name : String) (number : Nat) : String := stem name ++ toString number

/-- The candidates, more than there are aliases to avoid. -/
def candidates (avoid : List String) (name : String) : List String :=
  (List.range' 1 (avoid.length + 1)).map (numbered name)

/-- The candidate of the least number that is not to be avoided. -/
def choose (avoid : List String) (name : String) : String :=
  ((candidates avoid name).find? (· ∉ avoid)).getD name

end QueryGuard.FreshAlias
