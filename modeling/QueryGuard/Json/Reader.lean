import QueryGuard.Json.Syntax
import QueryGuard.Text.Hexadecimal
/-!
Reading JSON documents. Each step returns what it read and the text that follows.
-/

set_option autoImplicit false

namespace QueryGuard.Json

namespace Written

/-- White space between the elements of a document. -/
def isSpace (c : Char) : Bool := c = ' ' || c = '\t' || c = '\n' || c = '\r'

def skipSpace (text : List Char) : List Char := text.dropWhile isSpace

/-- The character that a backslash and one more character stand for. -/
def escape? : Char → Option Char
  | '"' => some '"'
  | '\\' => some '\\'
  | '/' => some '/'
  | 'b' => some '\x08'
  | 'f' => some '\x0c'
  | 'n' => some '\n'
  | 'r' => some '\r'
  | 't' => some '\t'
  | _ => none

/-- The number that four hexadecimal digits stand for. -/
def unit? (a b c d : Char) : Option Nat := do
  return (((← Text.hexDigit? a) * 16 + (← Text.hexDigit? b)) * 16 + (← Text.hexDigit? c)) * 16 +
    (← Text.hexDigit? d)

/-- The letters of a string after its opening quote, up to the closing one. -/
def afterQuote : List Char → Option (List Letter × List Char)
  | [] => none
  | '"' :: rest => some ([], rest)
  | '\\' :: 'u' :: a :: b :: c :: d :: rest => do
      let code ← unit? a b c d
      let (letters, rest) ← afterQuote rest
      return (.unit code :: letters, rest)
  | '\\' :: c :: rest => do
      let c ← escape? c
      let (letters, rest) ← afterQuote rest
      return (.plain c :: letters, rest)
  | c :: rest =>
      if c.toNat < 0x20 then none
      else do
        let (letters, rest) ← afterQuote rest
        return (.plain c :: letters, rest)

/-- At least one digit. -/
def digits? (text : List Char) : Option (List Char × List Char) :=
  let digits := text.takeWhile Char.isDigit
  if digits = [] then none else some (digits, text.dropWhile Char.isDigit)

/-- The digits of a whole number, where no zero stands in front. -/
def whole? (text : List Char) : Option (List Char × List Char) := do
  let (digits, rest) ← digits? text
  if digits.head? = some '0' ∧ digits ≠ ['0'] then none else some (digits, rest)

/-- The digits after a point, none without a point. -/
def fraction? : List Char → Option (List Char × List Char)
  | '.' :: rest => digits? rest
  | rest => some ([], rest)

/-- The power of ten after its letter, if there is one. -/
def power? : List Char → Option (Option Int × List Char)
  | c :: rest =>
      if c = 'e' ∨ c = 'E' then do
        let (negative, rest) := match rest with
          | '-' :: rest => (true, rest)
          | '+' :: rest => (false, rest)
          | rest => (false, rest)
        let (digits, rest) ← digits? rest
        let power : Int := Nat.ofDigitChars 10 digits 0
        return (some (if negative then -power else power), rest)
      else some (none, c :: rest)
  | [] => some (none, [])

def numeral? (text : List Char) : Option (Numeral × List Char) := do
  let (negative, rest) := match text with
    | '-' :: rest => (true, rest)
    | rest => (false, rest)
  let (whole, rest) ← whole? rest
  let (fraction, rest) ← fraction? rest
  let (power, rest) ← power? rest
  return (⟨negative, whole, fraction, power⟩, rest)

mutual

/-- A value at the start of the text; the budget is at least the length of the text. -/
def value : Nat → List Char → Option (Written × List Char)
  | 0, _ => none
  | budget + 1, text =>
      match text with
      | 'n' :: 'u' :: 'l' :: 'l' :: rest => some (.null, rest)
      | 't' :: 'r' :: 'u' :: 'e' :: rest => some (.bool true, rest)
      | 'f' :: 'a' :: 'l' :: 's' :: 'e' :: rest => some (.bool false, rest)
      | '"' :: rest => (afterQuote rest).map fun (value, rest) => (.string value, rest)
      | '[' :: rest =>
          match skipSpace rest with
          | ']' :: rest => some (.array [], rest)
          | rest => (items budget rest).map fun (items, rest) => (.array items, rest)
      | '\x7b' :: rest =>
          match skipSpace rest with
          | '\x7d' :: rest => some (.object [], rest)
          | rest => (fields budget rest).map fun (fields, rest) => (.object fields, rest)
      | text => (numeral? text).map fun (value, rest) => (.number value, rest)

/-- The items from the first one on, to the closing bracket. -/
def items : Nat → List Char → Option (List Written × List Char)
  | 0, _ => none
  | budget + 1, text => do
      let (item, rest) ← value budget text
      match skipSpace rest with
      | ',' :: rest =>
          let (others, rest) ← items budget (skipSpace rest)
          return (item :: others, rest)
      | ']' :: rest => return ([item], rest)
      | _ => none

/-- The fields from the first one on, to the closing brace. -/
def fields : Nat → List Char → Option (List (List Letter × Written) × List Char)
  | 0, _ => none
  | budget + 1, text =>
      match text with
      | '"' :: rest => do
          let (name, rest) ← afterQuote rest
          match skipSpace rest with
          | ':' :: rest =>
              let (item, rest) ← value budget (skipSpace rest)
              match skipSpace rest with
              | ',' :: rest =>
                  let (others, rest) ← fields budget (skipSpace rest)
                  return ((name, item) :: others, rest)
              | '\x7d' :: rest => return ([(name, item)], rest)
              | _ => none
          | _ => none
      | _ => none

end

/-- The document that a whole text writes. -/
def read? (text : String) : Option Written := do
  let start := skipSpace text.toList
  let (document, rest) ← value (start.length + 1) start
  if skipSpace rest = [] then some document else none

end Written

/-- The value that a whole text writes. -/
def read? (text : String) : Option Json :=
  (Written.read? text).bind (Written.value? nestingLimit)

end QueryGuard.Json
