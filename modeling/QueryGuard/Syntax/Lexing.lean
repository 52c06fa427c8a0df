import QueryGuard.Number.Decimal
import QueryGuard.Syntax.Token
import QueryGuard.Text.Quoted
/-!
Splitting a source text into lexemes and the gaps between them.

`front` says what stands at the start of a text, taking as many characters as it can; `scan`
repeats it to the end of the text or to the first fault.
-/

set_option autoImplicit false

namespace QueryGuard

/-- Why no token can be read. -/
inductive LexicalFault where
  | unrecognized (c : Char)
  | numberOutOfRange (numeral : String)
  | unterminatedString
  | unterminatedName
  | unterminatedComment
deriving DecidableEq, Repr

def LexicalFault.message : LexicalFault → String
  | unrecognized c => "unrecognized character '" ++ String.singleton c ++ "'"
  | numberOutOfRange numeral => "numeric literal '" ++ numeral ++ "' is out of range"
  | unterminatedString => "unterminated string literal"
  | unterminatedName => "unterminated quoted identifier"
  | unterminatedComment => "unterminated comment"

/-- A fault and its place in the source. -/
structure LexicalError where
  fault : LexicalFault
  span : Span
deriving DecidableEq, Repr

namespace Lexing

/-- White space between lexemes. -/
def isSpace (c : Char) : Bool := c = ' ' || c = '\t' || c = '\r' || c = '\n' || c = '\x0c'

/-- The characters that a name may start with. -/
def isNameStart (c : Char) : Bool := c.isAlpha || c = '_'

/-- The characters of a parameter name after the first. -/
def isMarkerPart (c : Char) : Bool := c.isAlphanum || c = '_'

/-- The characters of a name after the first. -/
def isNamePart (c : Char) : Bool := c.isAlphanum || c = '_' || c = '$'

/-- What a text starts with. -/
inductive Front where
  | gap
  | token (token : Token)
  | fault (fault : LexicalFault)
deriving DecidableEq, Repr

/-- The token of a word: a reserved word in any case, or else a name. -/
def word (text : List Char) : Token :=
  match Keyword.ofWord? text with
  | some keyword => .keyword keyword
  | none => .name (String.ofList text)

/-- The number of characters of a comment after its opening, if it is closed. -/
def commentLength? : List Char → Option Nat
  | '*' :: '/' :: _ => some 2
  | _ :: rest => (commentLength? rest).map (· + 1)
  | [] => none

/-- The largest integer that may be written. -/
def largestInteger : Nat := 2 ^ 63 - 1

/-- A number at the start of a text, after its first digit: digits, and with a point and further
digits a decimal number. -/
def number (c : Char) (rest : List Char) : Front × Nat :=
  let whole := rest.takeWhile Char.isDigit
  let integer : Front × Nat :=
    let value := Nat.ofDigitChars 10 (c :: whole) 0
    if value ≤ largestInteger then (.token (.integer value), whole.length)
    else (.fault (.numberOutOfRange (String.ofList (c :: whole))), whole.length)
  match rest.dropWhile Char.isDigit with
  | '.' :: more =>
      let fraction := more.takeWhile Char.isDigit
      if fraction = [] then integer
      else
        let value := (Decimal.ofDigits (c :: whole) fraction).nearest false
        (.token (.decimal value), whole.length + 1 + fraction.length)
  | _ => integer

/-- Quoted text after its opening quote. -/
def quotation (quote : Char) (token : String → Token) (fault : LexicalFault)
    (rest : List Char) : Front × Nat :=
  match Text.unquote quote rest with
  | some (text, after) => (.token (token (String.ofList text)), rest.length - after.length)
  | none => (.fault fault, rest.length)

/-- A text that starts with neither white space, a letter nor a digit. -/
def special (c : Char) (rest : List Char) : Front × Nat :=
  match c, rest with
  | '"', _ => quotation '"' .quotedName .unterminatedName rest
  | '\'', _ => quotation '\'' .string .unterminatedString rest
  | '-', '-' :: comment => (.gap, 1 + (comment.takeWhile (· ≠ '\n')).length)
  | '/', '*' :: comment =>
      match commentLength? comment with
      | some length => (.gap, 1 + length)
      | none => (.fault .unterminatedComment, rest.length)
  | ':', d :: more =>
      if isNameStart d then
        let name := d :: more.takeWhile isMarkerPart
        (.token (.parameter (String.ofList name)), name.length)
      else (.fault (.unrecognized ':'), 0)
  | '<', '>' :: _ => (.token (.symbol .notEqual), 1)
  | '<', '=' :: _ => (.token (.symbol .lessEqual), 1)
  | '>', '=' :: _ => (.token (.symbol .greaterEqual), 1)
  | '!', '=' :: _ => (.token (.symbol .notEqual), 1)
  | '=', _ => (.token (.symbol .equal), 0)
  | '<', _ => (.token (.symbol .less), 0)
  | '>', _ => (.token (.symbol .greater), 0)
  | '-', _ => (.token (.symbol .minus), 0)
  | '.', _ => (.token (.symbol .dot), 0)
  | ',', _ => (.token (.symbol .comma), 0)
  | '(', _ => (.token (.symbol .openParen), 0)
  | ')', _ => (.token (.symbol .closeParen), 0)
  | c, _ => (.fault (.unrecognized c), 0)

/-- What the text `c :: rest` starts with, and how many characters of `rest` belong to it. -/
def front (c : Char) (rest : List Char) : Front × Nat :=
  if isSpace c then (.gap, (rest.takeWhile isSpace).length)
  else if isNameStart c then
    let tail := rest.takeWhile isNamePart
    (.token (word (c :: tail)), tail.length)
  else if c.isDigit then number c rest
  else special c rest

/-- The number of bytes of a text. -/
def byteLength (text : List Char) : Nat := (text.map Char.utf8Size).foldr (· + ·) 0

/-- The lexemes of a text up to its end or the first fault. -/
structure Scan where
  lexemes : List Lexeme
  failure : Option LexicalError
deriving DecidableEq, Repr

/-- Scans a text that starts at a byte offset of its source. -/
def scan (offset : Nat) : List Char → Scan
  | [] => ⟨[], none⟩
  | c :: rest =>
      let (front, length) := front c rest
      let text := c :: rest.take length
      let stop := offset + byteLength text
      match front with
      | .gap => scan stop (rest.drop length)
      | .token token =>
          let after := scan stop (rest.drop length)
          ⟨⟨token, String.ofList text, .between offset stop⟩ :: after.lexemes, after.failure⟩
      | .fault fault => ⟨[], some ⟨fault, .between offset stop⟩⟩
termination_by text => text.length
decreasing_by all_goals simp only [List.length_drop, List.length_cons]; omega

end Lexing

/-- The scan of a whole source. -/
def scan (source : String) : Lexing.Scan := Lexing.scan 0 source.toList

/-- The lexemes of a source, or its first fault. -/
def tokenize (source : String) : Except LexicalError (List Lexeme) :=
  let scanned := scan source
  match scanned.failure with
  | none => .ok scanned.lexemes
  | some error => .error error

theorem tokenize_ofList (chars : List Char) :
    tokenize (String.ofList chars) =
      match (Lexing.scan 0 chars).failure with
      | none => .ok (Lexing.scan 0 chars).lexemes
      | some error => .error error := by
  rw [tokenize, scan, String.toList_ofList]

/-- Whether a text is one reserved word, with any gaps around it. -/
def isKeyword (text : String) : Bool :=
  match tokenize text with
  | .ok [lexeme] => lexeme.token.keyword?.isSome
  | _ => false

end QueryGuard
