import Mathlib.Data.Prod.Lex
import Mathlib.Order.Monotone.Defs
import QueryGuard.Proofs.Lexing.Tiling
import QueryGuard.Text.Position
/-!
The lines of a text, and the line and column behind a part of it. The places of the offsets between
characters are in the order of the offsets, by line and then by column, so no two of them are the same. An
offset inside a character has the place behind it, and one past the end that of the end.
-/

set_option autoImplicit false

namespace QueryGuard

open Lexing

/-! ### Lines and columns -/

namespace Position

/-- The place after all characters of a text. -/
def behind (position : Position) (text : List Char) : Position := text.foldl next position

/-- The place of an offset between two characters is the one behind those in front of it. -/
theorem after_byteLength (position : Position) (text rest : List Char) :
    position.after (text ++ rest) (byteLength text) = position.behind text := by
  induction text generalizing position with
  | nil => exact after_zero position rest
  | cons c text ih =>
    have length : byteLength (c :: text) = c.utf8Size + byteLength text := rfl
    have positive := c.utf8Size_pos
    rw [List.cons_append, after, if_neg (by omega), length, Nat.add_sub_cancel_left, ih]
    rfl

theorem line_behind (position : Position) (text : List Char) :
    (position.behind text).line = position.line + text.count '\n' := by
  induction text generalizing position with
  | nil => rfl
  | cons c text ih =>
    change ((position.next c).behind text).line = _
    by_cases newline : c = '\n'
    · subst newline
      rw [ih, next_newline, List.count_cons_self, Nat.add_right_comm, Nat.add_assoc]
    · rw [ih, next_of_ne position newline, List.count_cons_of_ne newline]

/-- A part of a line moves on along the line. -/
theorem behind_line (position : Position) {text : List Char} (line : '\n' ∉ text) :
    position.behind text = ⟨position.line, position.column + text.length⟩ := by
  induction text generalizing position with
  | nil => rfl
  | cons c text ih =>
    rw [List.mem_cons, not_or] at line
    change (position.next c).behind text = _
    rw [ih _ line.2, next_of_ne position (Ne.symm line.1), List.length_cons, Nat.add_assoc,
      Nat.add_comm 1]

/-- A line starts in the first column. -/
theorem column_behind {above : List Char} (ends : ∀ c ∈ above.getLast?, c = '\n') :
    (origin.behind above).column = 1 := by
  rcases List.eq_nil_or_concat above with rfl | ⟨before, c, rfl⟩
  · rfl
  · obtain rfl : c = '\n' := ends c (by simp)
    rw [behind, List.concat_eq_append, List.foldl_append]
    rfl

/-- The place in a line: its number is one more than there are line breaks above it, and the column is one
more than there are characters in front. -/
theorem of_line {above left : List Char} (rest : List Char)
    (ends : ∀ c ∈ above.getLast?, c = '\n') (line : '\n' ∉ left) :
    of (String.ofList (above ++ left ++ rest)) (byteLength (above ++ left)) =
      ⟨above.count '\n' + 1, left.length + 1⟩ := by
  have whole : origin.behind (above ++ left) = (origin.behind above).behind left :=
    List.foldl_append
  rw [of, String.toList_ofList, after_byteLength, whole, behind_line _ line, line_behind,
    column_behind ends, Nat.add_comm left.length, Nat.add_comm (above.count '\n')]
  rfl

end Position

/-! ### The text of a line -/

namespace Text

/-- Where a line ends: before `\n`, before `\r\n`, or with the text, if it has a character at all. -/
inductive Ending : (line below : List Char) → Prop where
  | last {line : List Char} (nonempty : line ≠ []) : Ending line []
  | feed {line : List Char} (rest : List Char) (bare : ∀ c ∈ line.getLast?, c ≠ '\r') :
      Ending line ('\n' :: rest)
  | returned {line : List Char} (rest : List Char) : Ending line ('\r' :: '\n' :: rest)

/-- A line of a text, with what stands above and below it. -/
structure IsLine (above line below : List Char) : Prop where
  starts : ∀ c ∈ above.getLast?, c = '\n'
  whole : '\n' ∉ line
  ends : Ending line below

theorem lines_ne_nil {text : List Char} (nonempty : text ≠ []) : lines text ≠ [] := by
  fun_cases lines text with
  | case1 => exact absurd rfl nonempty
  | case2 => exact List.cons_ne_nil _ _
  | case3 => exact List.cons_ne_nil _ _
  | case4 => exact List.cons_ne_nil _ _
  | case5 => exact List.cons_ne_nil _ _

/-- A character that ends no line is the first one of the first line. -/
theorem lines_cons {c : Char} {rest : List Char} (other : c ≠ '\n')
    (bare : c = '\r' → rest.head? ≠ some '\n') :
    lines (c :: rest) =
      match lines rest with
      | [] => [[c]]
      | line :: others => (c :: line) :: others := by
  rw [lines.eq_def]
  split
  · contradiction
  · rename_i same
    exact absurd (List.cons.inj same).1 other
  · rename_i same
    obtain ⟨rfl, rfl⟩ := List.cons.inj same
    exact absurd rfl (bare rfl)
  · rename_i same
    obtain ⟨rfl, rfl⟩ := List.cons.inj same
    rfl

/-- Above a line there are as many lines as line breaks. -/
theorem lines_append {above : List Char} (starts : ∀ c ∈ above.getLast?, c = '\n')
    (rest : List Char) :
    lines (above ++ rest) = lines above ++ lines rest ∧ (lines above).length = above.count '\n' := by
  fun_induction lines above with
  | case1 => exact ⟨rfl, rfl⟩
  | case2 above ih =>
    obtain ⟨split, count⟩ := ih fun c last => starts c (by
      rw [List.getLast?_cons, Option.mem_def.mp last]; rfl)
    exact ⟨congrArg ([] :: ·) split, by rw [List.length_cons, count, List.count_cons_self]⟩
  | case3 above ih =>
    obtain ⟨split, count⟩ := ih fun c last => starts c (by
      rw [List.getLast?_cons, List.getLast?_cons, Option.mem_def.mp last]; rfl)
    refine ⟨congrArg ([] :: ·) split, ?_⟩
    rw [List.length_cons, count, List.count_cons_of_ne (by decide), List.count_cons_self]
  | case4 c above other returned none ih =>
    have empty : above = [] := Decidable.byContradiction fun nonempty =>
      lines_ne_nil nonempty none
    subst empty
    exact absurd (starts c rfl) other
  | case5 c above other returned line others some ih =>
    have nonempty : above ≠ [] := by
      rintro rfl
      cases some
    obtain ⟨d, more, rfl⟩ := List.exists_cons_of_ne_nil nonempty
    obtain ⟨split, count⟩ := ih fun e last => starts e (by
      rw [List.getLast?_cons, Option.mem_def.mp last]; rfl)
    rw [some] at split count
    have bare : c = '\r' → (d :: more ++ rest).head? ≠ Option.some '\n' := fun isReturn first =>
      returned more isReturn (by rw [← Option.some.inj first])
    constructor
    · rw [List.cons_append, lines_cons other bare, split]
      rfl
    · rw [List.count_cons_of_ne other, ← count]
      rfl

/-- The first line of a text that starts with one. -/
theorem head?_lines {line below : List Char} (whole : '\n' ∉ line) (ends : Ending line below) :
    (lines (line ++ below)).head? = some line := by
  induction line with
  | nil =>
    cases ends with
    | last nonempty => exact absurd rfl nonempty
    | feed => rfl
    | returned => rfl
  | cons c line ih =>
    rw [List.mem_cons, not_or] at whole
    have bare : c = '\r' → (line ++ below).head? ≠ some '\n' := by
      rintro rfl first
      cases line with
      | cons d more => exact whole.2 (List.mem_cons.mpr (.inl (Option.some.inj first).symm))
      | nil =>
        cases ends with
        | last => cases first
        | feed rest noReturn => exact noReturn '\r' rfl rfl
        | returned => exact absurd (Option.some.inj first) (by decide)
    rw [List.cons_append, lines_cons (Ne.symm whole.1) bare]
    by_cases last : line ++ below = []
    · obtain ⟨rfl, rfl⟩ := List.append_eq_nil_iff.mp last
      rfl
    · have further : Ending line below := by
        cases ends with
        | last => exact .last (by simpa using last)
        | feed rest noReturn =>
          refine .feed rest fun d member => noReturn d ?_
          rw [List.getLast?_cons, Option.mem_def.mp member]
          rfl
        | returned rest => exact .returned rest
      obtain ⟨others, split⟩ := List.head?_eq_some_iff.mp (ih whole.2 further)
      rw [split]
      rfl

/-- A line is the one of its number. -/
theorem IsLine.lines_getElem? {above line below : List Char} (isLine : IsLine above line below) :
    (lines (above ++ (line ++ below)))[above.count '\n']? = some line := by
  obtain ⟨split, count⟩ := lines_append isLine.starts (line ++ below)
  rw [split, List.getElem?_append_right (Nat.le_of_eq count), count, Nat.sub_self,
    ← List.head?_eq_getElem?]
  exact head?_lines isLine.whole isLine.ends

end Text

/-! ### Offsets -/

/-- The offsets between the characters of a text, its start and its end among them. -/
def Text.boundaries (source : String) : Set Nat :=
  {offset | (⟨offset⟩ : String.Pos.Raw).IsValid source}

theorem Text.mem_boundaries {source : String} {offset : Nat} :
    offset ∈ boundaries source ↔ ∃ left, left <+: source.toList ∧ byteLength left = offset := by
  refine String.Pos.Raw.isValid_iff_exists_append.trans ⟨?_, ?_⟩
  · rintro ⟨left, right, rfl, place⟩
    refine ⟨left.toList, ⟨right.toList, String.toList_append.symm⟩, ?_⟩
    rw [← utf8ByteSize_eq, ← String.byteIdx_rawEndPos, ← place]
  · rintro ⟨left, ⟨right, whole⟩, rfl⟩
    refine ⟨String.ofList left, String.ofList right, ?_, ?_⟩
    · rw [← String.ofList_append, whole, String.ofList_toList]
    · rw [← utf8ByteSize_ofList]
      rfl

namespace Position

/-- Places are in order by line, those of a line by column. -/
def rank (position : Position) : ℕ ×ₗ ℕ := toLex (position.line, position.column)

/-- One more character leads to a later place. -/
theorem rank_lt_next (position : Position) (c : Char) : position.rank < (position.next c).rank := by
  rw [rank, rank, Prod.Lex.toLex_lt_toLex]
  by_cases newline : c = '\n'
  · subst newline
    exact .inl (Nat.lt_succ_self _)
  · rw [next_of_ne position newline]
    exact .inr ⟨rfl, Nat.lt_succ_self _⟩

theorem rank_lt_behind (position : Position) {text : List Char} (nonempty : text ≠ []) :
    position.rank < (position.behind text).rank := by
  induction text generalizing position with
  | nil => exact absurd rfl nonempty
  | cons c rest ih =>
    change position.rank < ((position.next c).behind rest).rank
    by_cases last : rest = []
    · subst last
      exact rank_lt_next position c
    · exact (rank_lt_next position c).trans (ih (position.next c) last)

/-- Between characters, a larger offset has a later place. -/
theorem rank_lt_of {source : String} {first second : Nat} (starts : first ∈ Text.boundaries source)
    (stops : second ∈ Text.boundaries source) (less : first < second) :
    (of source first).rank < (of source second).rank := by
  obtain ⟨left, within, rfl⟩ := Text.mem_boundaries.mp starts
  obtain ⟨text, within', rfl⟩ := Text.mem_boundaries.mp stops
  obtain ⟨between, rfl⟩ := prefix_of_byteLength_le within within' (Nat.le_of_lt less)
  obtain ⟨right, whole⟩ := within'
  have nonempty : between ≠ [] := by
    rintro rfl
    rw [List.append_nil] at less
    exact Nat.lt_irrefl _ less
  have earlier : of source (byteLength left) = origin.behind left := by
    rw [of, ← whole, List.append_assoc, after_byteLength]
  have later : of source (byteLength (left ++ between)) = (origin.behind left).behind between := by
    rw [of, ← whole, after_byteLength]
    exact List.foldl_append
  rw [earlier, later]
  exact rank_lt_behind _ nonempty

/-- The line of an offset between characters is counted by the line breaks in front of it, and the column by
the characters behind the last one. -/
theorem of_boundary (left right : List Char) :
    of (String.ofList (left ++ right)) (byteLength left) =
      ⟨left.count '\n' + 1, (left.reverse.takeWhile (· ≠ '\n')).length + 1⟩ := by
  let above := (left.reverse.dropWhile (· ≠ '\n')).reverse
  let line := (left.reverse.takeWhile (· ≠ '\n')).reverse
  have whole : above ++ line = left := by
    rw [← List.reverse_append, List.takeWhile_append_dropWhile, List.reverse_reverse]
  have bare : '\n' ∉ line := by
    intro found
    have other := List.all_eq_true.mp List.all_takeWhile _ (List.mem_reverse.mp found)
    exact absurd other (by simp)
  have ends : ∀ c ∈ above.getLast?, c = '\n' := by
    intro c last
    rw [List.getLast?_reverse] at last
    have stops := List.head?_dropWhile_not (· ≠ '\n') left.reverse
    rw [Option.mem_def.mp last] at stops
    simpa using stops
  have breaks : left.count '\n' = above.count '\n' := by
    rw [← whole, List.count_append, List.count_eq_zero_of_not_mem bare, Nat.add_zero]
  rw [breaks, ← List.length_reverse, ← of_line right ends bare, whole]

/-- A character is passed by each offset behind its start. -/
theorem after_inside (position : Position) (left : List Char) {c : Char} (right : List Char)
    {offset : Nat} (starts : byteLength left < offset)
    (ends : offset ≤ byteLength left + c.utf8Size) :
    position.after (left ++ c :: right) offset = (position.behind left).next c := by
  induction left generalizing position offset with
  | nil =>
    have none : byteLength [] = 0 := rfl
    have passed : offset - c.utf8Size = 0 := by omega
    rw [List.nil_append, after, if_neg (by omega), passed, after_zero]
    rfl
  | cons d left ih =>
    have length : byteLength (d :: left) = d.utf8Size + byteLength left := rfl
    rw [List.cons_append, after, if_neg (by omega)]
    exact ih (position.next d) (by omega) (by omega)

/-- All characters are passed by an offset past the end. -/
theorem after_end (position : Position) {text : List Char} {offset : Nat}
    (past : byteLength text ≤ offset) : position.after text offset = position.behind text := by
  induction text generalizing position offset with
  | nil => rfl
  | cons c rest ih =>
    have length : byteLength (c :: rest) = c.utf8Size + byteLength rest := rfl
    have positive := c.utf8Size_pos
    rw [after, if_neg (by omega)]
    exact ih (position.next c) (by omega)

/-- Places identify the offsets between characters: they are in the order of these, and so different. Their
lines and columns are counted by what stands in front. An offset inside a character has the place behind the
character, and an offset past the end that of the end. -/
theorem of_identifies (source : String) :
    StrictMonoOn (fun offset => (of source offset).rank) (Text.boundaries source) ∧
    Set.InjOn (of source) (Text.boundaries source) ∧
    (∀ left right : String, source = left ++ right →
      of source left.utf8ByteSize =
        ⟨left.toList.count '\n' + 1, (left.toList.reverse.takeWhile (· ≠ '\n')).length + 1⟩) ∧
    (∀ (left right : String) (c : Char) (offset : Nat),
      source = left ++ String.singleton c ++ right → left.utf8ByteSize < offset →
      offset ≤ (left ++ String.singleton c).utf8ByteSize →
      of source offset = of source (left ++ String.singleton c).utf8ByteSize) ∧
    ∀ offset, source.utf8ByteSize ≤ offset → of source offset = of source source.utf8ByteSize := by
  have order : StrictMonoOn (fun offset => (of source offset).rank) (Text.boundaries source) :=
    fun first starts second stops => rank_lt_of starts stops
  refine ⟨order, fun first starts second stops same => ?_, ?_, ?_, ?_⟩
  · exact order.injOn starts stops (congrArg rank same)
  · rintro left right rfl
    rw [utf8ByteSize_eq, ← of_boundary left.toList right.toList, ← String.toList_append,
      String.ofList_toList]
  · rintro left right c offset rfl starts ends
    have text : (left ++ String.singleton c ++ right).toList = left.toList ++ c :: right.toList := by
      rw [String.toList_append, String.toList_append, String.toList_singleton, List.append_assoc]
      rfl
    have behind : (left ++ String.singleton c).utf8ByteSize =
        byteLength left.toList + c.utf8Size := by
      rw [String.utf8ByteSize_append, String.utf8ByteSize_singleton, utf8ByteSize_eq]
    have positive := c.utf8Size_pos
    rw [utf8ByteSize_eq] at starts
    rw [behind] at ends
    rw [of, of, text, behind, after_inside _ _ _ starts ends,
      after_inside _ _ _ (by omega) (Nat.le_refl _)]
  · intro offset past
    rw [utf8ByteSize_eq] at past
    rw [of, of, utf8ByteSize_eq, after_end _ past, after_end _ (Nat.le_refl _)]

/-- The letter of two bytes counts as one column, the line break behind it leads to the next line. -/
theorem of_identifies_accent :
    2 ∈ Text.boundaries "é\nab" ∧ 3 ∈ Text.boundaries "é\nab" ∧
      (of "é\nab" 2).rank < (of "é\nab" 3).rank ∧ of "é\nab" 2 ≠ of "é\nab" 3 ∧
      of "é\nab" 3 = ⟨2, 1⟩ ∧ of "é\nab" 1 = of "é\nab" 2 ∧ of "é\nab" 9 = of "é\nab" 5 := by
  obtain ⟨order, apart, place, inside, past⟩ := of_identifies "é\nab"
  have letter : 2 ∈ Text.boundaries "é\nab" := Text.mem_boundaries.mpr ⟨['é'], by decide, rfl⟩
  have newline : 3 ∈ Text.boundaries "é\nab" :=
    Text.mem_boundaries.mpr ⟨['é', '\n'], by decide, rfl⟩
  refine ⟨letter, newline, order letter newline (by decide), ?_, ?_, ?_, ?_⟩
  · exact fun same => absurd (apart letter newline same) (by decide)
  · exact place "é\n" "ab" (by decide)
  · exact inside "" "\nab" 'é' 1 (by decide) (by decide) (by decide)
  · exact past 9 (by decide)

end Position

end QueryGuard
