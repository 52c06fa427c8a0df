import QueryGuard.Proofs.Text.Positions
import QueryGuard.Text.Excerpt
/-!
The caret of an error report. It stands under the character that the span starts at as long as the number
of the line has three digits at most; the tail has one column for each byte of the span, up to the end of the
line, so it marks the characters of the span if these are of one byte each or reach the end of the line.
-/

set_option autoImplicit false

namespace QueryGuard

open Lexing

/-! ### Bytes and characters -/

theorem Lexing.length_le_byteLength (text : List Char) : text.length ≤ byteLength text := by
  induction text with
  | nil => exact Nat.le_refl 0
  | cons c text ih =>
    have length : byteLength (c :: text) = c.utf8Size + byteLength text := rfl
    have positive := c.utf8Size_pos
    rw [List.length_cons]
    omega

theorem Lexing.byteLength_eq_length_iff {text : List Char} :
    byteLength text = text.length ↔ ∀ c ∈ text, c.utf8Size = 1 := by
  induction text with
  | nil => exact iff_of_true rfl (List.forall_mem_nil _)
  | cons c text ih =>
    have length : byteLength (c :: text) = c.utf8Size + byteLength text := rfl
    have positive := c.utf8Size_pos
    have further := length_le_byteLength text
    rw [List.forall_mem_cons, ← ih, List.length_cons]
    omega

namespace Text

/-! ### The two rows -/

/-- What stands in front of a line: its number and a bar. -/
def gutter (number : Nat) : List Char := (inThreeColumns number).toList ++ ['|', ' ']

/-- What stands in front of the caret under a column. -/
def lead (column : Nat) : List Char := [' ', ' ', ' ', '|'] ++ List.replicate column ' '

/-- What stands behind the caret. -/
def tail (line : List Char) (column length : Nat) : List Char :=
  List.replicate (min length (line.length - column + 1) - 1) '~'

theorem underline_eq (line : List Char) (column length : Nat) :
    underline line column length =
      String.ofList (lead column ++ '^' :: tail line column length) ++ "\n" := by
  have caret : '^' :: tail line column length = ['^'] ++ tail line column length := rfl
  rw [lead, caret, String.ofList_append, String.ofList_append, String.ofList_append,
    ← String.append_assoc]
  rfl

/-- The report of an error with a place in the source. -/
theorem excerpt_between (message : String) (start stop : Nat) (hint : Option String)
    (source : String) :
    excerpt message (.between start stop) hint source =
      "error: " ++ message ++ "\n" ++ "  --> line " ++ toString (Position.of source start).line ++
        ":" ++ toString (Position.of source start).column ++ "\n" ++
        markedLine source (Position.of source start) (stop - start) ++
        hint.elim "" fun advice => "   = hint: " ++ advice ++ "\n" := by
  cases hint <;> rfl

theorem length_lead (column : Nat) : (lead column).length = 4 + column := by
  rw [lead, List.length_append, List.length_replicate]
  rfl

theorem length_gutter (number : Nat) :
    (gutter number).length = max 3 (toString number).length + 2 := by
  rw [gutter, inThreeColumns, String.toList_append, List.length_append, List.length_append,
    String.toList_ofList, List.length_replicate, String.length_toList]
  change 3 - (toString number).length + (toString number).length + 2 = _
  omega

/-- The gutter of a line and that of the caret are of one width below line 1000. -/
theorem aligned_iff (number before : Nat) :
    (lead (before + 1)).length = (gutter number).length + before ↔ number < 1000 := by
  have digits : (toString number).length ≤ 3 ↔ number < 1000 := Nat.length_repr_le_iff (by decide)
  rw [length_lead, length_gutter, ← digits]
  omega

/-- The tail marks the characters of a span that lie on the line if these have one byte each, or if the
span covers the rest of the line. -/
theorem marked_iff {left right below covered after : List Char}
    (inside : right ++ below = covered ++ after) :
    (tail (left ++ right) (left.length + 1) (byteLength covered)).length + 1 =
        max 1 (covered.take right.length).length ↔
      (∀ c ∈ covered.take right.length, c.utf8Size = 1) ∨ covered.take right.length = right := by
  have bytes := length_le_byteLength covered
  have rest : (left ++ right).length - (left.length + 1) = right.length - 1 := by
    rw [List.length_append]
    omega
  rw [tail, List.length_replicate, rest, List.length_take]
  by_cases reaches : right.length ≤ covered.length
  · have part : covered.take right.length = right := by
      have within : (covered ++ after).take right.length = covered.take right.length :=
        List.take_append_of_le_length reaches
      rw [← within, ← inside, List.take_left]
    refine iff_of_true ?_ (.inr part)
    omega
  · have whole : covered.take right.length = covered :=
      List.take_of_length_le (Nat.le_of_not_le reaches)
    have short : covered ≠ right := by
      rintro rfl
      exact reaches (Nat.le_refl _)
    have none : covered.length = 0 → byteLength covered = 0 := by
      intro empty
      rw [List.length_eq_zero_iff.mp empty]
      rfl
    rw [whole, ← byteLength_eq_length_iff, or_iff_left short]
    omega

/-! ### The report -/

/-- In the report of a span that starts in a line, the line stands above the caret. The caret is under the
first character of the span exactly up to line 999. It marks with its tail the characters of the span in that
line, one at least, exactly if these are of one byte each or are the rest of the line. -/
theorem excerpt_caret_iff {above left right below covered after : List Char} (message : String)
    (hint : Option String) (isLine : IsLine above (left ++ right) below)
    (inside : right ++ below = covered ++ after) :
    let before := above ++ left
    let number := above.count '\n' + 1
    let marked := covered.take right.length
    ∃ gutter lead tail : List Char,
      excerpt message (.between (byteLength before) (byteLength (before ++ covered))) hint
          (String.ofList (before ++ (covered ++ after))) =
        "error: " ++ message ++ "\n" ++
          "  --> line " ++ toString number ++ ":" ++ toString (left.length + 1) ++ "\n" ++
          ("   |\n" ++
            String.ofList (gutter ++ (left ++ right)) ++ "\n" ++
            String.ofList (lead ++ '^' :: tail) ++ "\n") ++
          (hint.elim "" fun advice => "   = hint: " ++ advice ++ "\n") ∧
      '^' ∉ lead ∧ (∀ c ∈ tail, c = '~') ∧
      (lead.length = gutter.length + left.length ↔ number < 1000) ∧
      (tail.length + 1 = max 1 marked.length ↔
        (∀ c ∈ marked, c.utf8Size = 1) ∨ marked = right) := by
  intro before number marked
  have line : '\n' ∉ left := fun found => isLine.whole (List.mem_append_left _ found)
  have position : Position.of (String.ofList (before ++ (covered ++ after))) (byteLength before) =
      ⟨number, left.length + 1⟩ := Position.of_line (covered ++ after) isLine.starts line
  have source : before ++ (covered ++ after) = above ++ (left ++ right ++ below) := by
    rw [← inside, List.append_assoc, List.append_assoc]
  have length : byteLength (before ++ covered) - byteLength before = byteLength covered := by
    rw [byteLength_append, Nat.add_sub_cancel_left]
  have rows : markedLine (String.ofList (before ++ (covered ++ after)))
      ⟨number, left.length + 1⟩ (byteLength covered) =
        "   |\n" ++ String.ofList (gutter number ++ (left ++ right)) ++ "\n" ++
          String.ofList (lead (left.length + 1) ++
            '^' :: tail (left ++ right) (left.length + 1) (byteLength covered)) ++ "\n" := by
    rw [markedLine, String.toList_ofList, source]
    simp only [number, Nat.add_sub_cancel, isLine.lines_getElem?, underline_eq, gutter,
      String.ofList_append, String.ofList_toList, String.append_assoc]
  refine ⟨gutter number, lead (left.length + 1),
    tail (left ++ right) (left.length + 1) (byteLength covered), ?_, ?_, ?_, aligned_iff number _,
    marked_iff inside⟩
  · rw [excerpt_between, position, length, rows]
  · intro found
    rcases List.mem_append.mp found with bar | space
    · exact absurd bar (by decide)
    · exact absurd (List.eq_of_mem_replicate space) (by decide)
  · exact fun c found => List.eq_of_mem_replicate found

/-- Under a letter of two bytes the caret is in place, but the tail goes on under the next letter. -/
theorem excerpt_caret_iff_accent :
    IsLine ['é', '\n'] ['a', 'é', 'b'] ['\r', '\n', 'c'] ∧
    ∃ gutter lead tail : List Char,
      excerpt "odd letter" (.between 4 6) none
          (String.ofList ['é', '\n', 'a', 'é', 'b', '\r', '\n', 'c']) =
        "error: odd letter\n  --> line 2:2\n   |\n" ++
          String.ofList (gutter ++ ['a', 'é', 'b']) ++ "\n" ++
          String.ofList (lead ++ '^' :: tail) ++ "\n" ∧
      '^' ∉ lead ∧ lead.length = gutter.length + ['a'].length ∧
      tail.length + 1 ≠ ['é'].length := by
  have isLine : IsLine ['é', '\n'] (['a'] ++ ['é', 'b']) ['\r', '\n', 'c'] :=
    ⟨fun _ last => (Option.some.inj last).symm, by decide, .returned ['c']⟩
  obtain ⟨gutter, lead, tail, shown, caret, _, aligned, marked⟩ :=
    @excerpt_caret_iff _ _ _ _ ['é'] ['b', '\r', '\n', 'c'] "odd letter" none isLine rfl
  refine ⟨isLine, gutter, lead, tail, ?_, caret, aligned.mpr (by decide), fun good => ?_⟩
  · have headline : "error: " ++ "odd letter" ++ "\n" ++ "  --> line " ++ toString 2 ++ ":" ++
        toString 2 ++ "\n" ++ "   |\n" = "error: odd letter\n  --> line 2:2\n   |\n" := by decide
    rw [← headline]
    simp only [String.append_assoc, Option.elim_none, String.append_empty] at shown ⊢
    exact shown
  · rcases marked.mp good with single | rest
    · exact absurd (single 'é' List.mem_cons_self) (by decide)
    · exact absurd rest (by decide)

end Text

end QueryGuard
