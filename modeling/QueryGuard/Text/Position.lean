/-!
Lines and columns of a source text.
-/

set_option autoImplicit false

namespace QueryGuard

/-- A place for a reader: line and column, both counted from one. -/
structure Position where
  line : Nat
  column : Nat
deriving DecidableEq, Repr, Inhabited

namespace Position

/-- Where every text starts. -/
def origin : Position := ⟨1, 1⟩

/-- The place after one more character. -/
def next (position : Position) (c : Char) : Position :=
  if c = '\n' then ⟨position.line + 1, 1⟩ else ⟨position.line, position.column + 1⟩

/-- The place after the characters of `source` that start before `offset` bytes are used up. -/
def after (position : Position) : List Char → Nat → Position
  | [], _ => position
  | c :: rest, offset =>
      if offset = 0 then position else (position.next c).after rest (offset - c.utf8Size)

/-- The place of a byte offset; an offset past the end stands at the end. -/
def of (source : String) (offset : Nat) : Position := origin.after source.toList offset

@[simp] theorem next_newline (position : Position) :
    position.next '\n' = ⟨position.line + 1, 1⟩ := rfl

theorem next_of_ne (position : Position) {c : Char} (other : c ≠ '\n') :
    position.next c = ⟨position.line, position.column + 1⟩ := by
  simp only [next, other, ↓reduceIte]

@[simp] theorem after_nil (position : Position) (offset : Nat) :
    position.after [] offset = position := rfl

@[simp] theorem after_zero (position : Position) (source : List Char) :
    position.after source 0 = position := by
  cases source <;> rfl

end Position

namespace Text

/-- The lines of a text: a line ends before `\n` or `\r\n`, and nothing follows a last line end. -/
def lines : List Char → List (List Char)
  | [] => []
  | '\n' :: rest => [] :: lines rest
  | '\r' :: '\n' :: rest => [] :: lines rest
  | c :: rest =>
      match lines rest with
      | [] => [[c]]
      | line :: others => (c :: line) :: others

end Text

end QueryGuard
