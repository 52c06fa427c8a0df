import QueryGuard.Proofs.Number.ReadBack
import QueryGuard.Proofs.Reading.Words
import QueryGuard.Syntax.Printer
/-!
The words of printed names, strings, numbers, parameters and phrases.
-/

set_option autoImplicit false

namespace QueryGuard

namespace Word

/-- The word is a name, quoted or not. -/
def IsName (word : Word) (name : String) : Prop :=
  word.token = .name name ∨ word.token = .quotedName name

/-- The word stands for a name, as one or as a reserved word. -/
def StandsFor (word : Word) (name : String) : Prop :=
  word.IsName name ∨ ∃ keyword, word.token = .keyword keyword ∧ word.text = name

end Word

namespace Lexing

theorem takeWhile_append_of_starts {kind : Char → Bool} {text after : List Char}
    (all : ∀ c ∈ text, kind c) (starts : Starts (fun c => !kind c) after) :
    (text ++ after).takeWhile kind = text := by
  rw [List.takeWhile_append_of_pos all]
  cases after with
  | nil => simp
  | cons c rest =>
    have stops : kind c = false := by simpa using starts c rfl
    simp [stops]

theorem dropWhile_append_of_starts {kind : Char → Bool} {text after : List Char}
    (all : ∀ c ∈ text, kind c) (starts : Starts (fun c => !kind c) after) :
    (text ++ after).dropWhile kind = after := by
  rw [List.dropWhile_append_of_pos all]
  cases after with
  | nil => simp
  | cons c rest =>
    have stops : kind c = false := by simpa using starts c rfl
    simp [stops]

theorem not_isSpace_of_isNameStart {c : Char} (start : isNameStart c) : ¬ isSpace c := by
  intro space
  simp only [isSpace, Bool.or_eq_true, decide_eq_true_eq] at space
  rcases space with (((rfl | rfl) | rfl) | rfl) | rfl <;> exact absurd start (by decide)

theorem isDigit_iff {c : Char} : c.isDigit ↔ 48 ≤ c.toNat ∧ c.toNat ≤ 57 := by
  simp only [Char.isDigit, Bool.and_eq_true, decide_eq_true_eq, UInt32.le_iff_toNat_le]
  rfl

/-- A letter comes behind the digits. -/
theorem of_isNameStart {c : Char} (start : isNameStart c) :
    65 ≤ c.toNat ∨ c = '_' := by
  simp only [isNameStart, Bool.or_eq_true, decide_eq_true_eq] at start
  rcases start with letter | underscore
  · left
    change (decide (65 ≤ c.val ∧ c.val ≤ 90) || (decide (97 ≤ c.val) && decide (c.val ≤ 122))) =
      true at letter
    simp only [Bool.or_eq_true, Bool.and_eq_true, decide_eq_true_eq,
      UInt32.le_iff_toNat_le] at letter
    rcases letter with upper | lower
    · exact upper.1
    · exact Nat.le_trans (by decide) lower.1
  · exact .inr underscore

theorem front_digit {c : Char} (digit : c.isDigit) (rest : List Char) :
    front c rest = number c rest := by
  have space : ¬ isSpace c := by
    intro space
    simp only [isSpace, Bool.or_eq_true, decide_eq_true_eq] at space
    rcases space with (((rfl | rfl) | rfl) | rfl) | rfl <;> exact absurd digit (by decide)
  have name : ¬ isNameStart c := by
    intro start
    rw [isDigit_iff] at digit
    rcases of_isNameStart start with letter | rfl
    · omega
    · exact absurd digit (by decide)
  simp only [front, space, name, digit, Bool.false_eq_true, ↓reduceIte]

/-- A letter and further characters of names make one word. -/
theorem spelled_word {c : Char} {rest : List Char} (start : isNameStart c)
    (parts : ∀ d ∈ rest, isNamePart d) :
    Spelled (fun d => !isNamePart d) (c :: rest)
      [⟨word (c :: rest), String.ofList (c :: rest)⟩] := by
  apply Spelled.token
  intro after starts
  simp only [front, not_isSpace_of_isNameStart start, start, Bool.false_eq_true, ↓reduceIte,
    takeWhile_append_of_starts parts starts]

theorem spelled_keyword (keyword : Keyword) :
    Spelled (fun d => !isNamePart d) keyword.spelling.toList [keyword.word] := by
  have reserved := keyword.ofWord?_spelling
  have letters : ∃ c rest, keyword.spelling.toList = c :: rest ∧ isNameStart c ∧
      ∀ d ∈ rest, isNamePart d := by
    cases keyword <;> exact ⟨_, _, rfl, rfl, List.all_eq_true.mp rfl⟩
  obtain ⟨c, rest, spelling, start, parts⟩ := letters
  have word : keyword.word = ⟨word (c :: rest), String.ofList (c :: rest)⟩ := by
    rw [← spelling, Lexing.word, reserved, String.ofList_toList, Keyword.word]
  rw [word, spelling]
  exact spelled_word start parts

/-- A reserved word and a space may stand in front of anything. -/
theorem spelled_keyword_space (keyword : Keyword) :
    Spelled anything (keyword.spelling.toList ++ [' ']) [keyword.word] :=
  (spelled_keyword keyword).append (Spelled.nil anything).space rfl

/-- A symbol that is read whatever follows it. -/
theorem spelled_symbol {c : Char} {symbol : Symbol} (spelling : symbol.spelling = String.ofList [c])
    (reads : ∀ rest, front c rest = (.token (.symbol symbol), 0)) :
    Spelled anything [c] [symbol.word] := by
  rw [Symbol.word, spelling]
  exact Spelled.token fun after _ => reads after

theorem spelled_dot : Spelled anything ['.'] [Symbol.dot.word] :=
  spelled_symbol rfl fun _ => rfl

theorem spelled_comma : Spelled anything [','] [Symbol.comma.word] :=
  spelled_symbol rfl fun _ => rfl

theorem spelled_openParen : Spelled anything ['('] [Symbol.openParen.word] :=
  spelled_symbol rfl fun _ => rfl

theorem spelled_closeParen : Spelled anything [')'] [Symbol.closeParen.word] :=
  spelled_symbol rfl fun _ => rfl

/-- The sign of a number is no comment, since a digit follows. -/
theorem spelled_minus : Spelled Char.isDigit ['-'] [Symbol.minus.word] := by
  apply Spelled.token
  intro after starts
  change front '-' after = _
  cases after with
  | nil => rfl
  | cons d rest =>
    have digit : d.isDigit := starts d rfl
    have other : d ≠ '-' := by
      rintro rfl
      exact absurd digit (by decide)
    have space : isSpace '-' = false := rfl
    have name : isNameStart '-' = false := rfl
    have number : '-'.isDigit = false := rfl
    simp [front, special, other, space, name, number]

theorem spelled_quoted {quote : Char} {token : String → Token} {fault : LexicalFault}
    (reads : ∀ rest, front quote rest = quotation quote token fault rest) (text : String) :
    Spelled (fun c => c ≠ quote) (Text.quoted quote text.toList)
      [⟨token text, String.ofList (Text.quoted quote text.toList)⟩] := by
  apply Spelled.token
  intro after starts
  have closed : after.head? ≠ some quote := by
    intro same
    simpa using starts quote same
  rw [reads, quotation, List.append_assoc, List.singleton_append,
    Text.unquote_doubled quote text.toList after closed]
  simp only [String.ofList_toList, List.length_append, List.length_cons, List.length_nil]
  congr 1
  omega

theorem spelled_string (text : String) :
    ∃ word : Word, word.token = .string text ∧ Spelled endsWord (Printing.string text) [word] :=
  ⟨_, rfl, (spelled_quoted (fun _ => rfl) text).mono (of_endsWord rfl)⟩

theorem spelled_quotedName (text : String) :
    ∃ word : Word, word.token = .quotedName text ∧
      Spelled endsName (Text.quoted '"' text.toList) [word] :=
  ⟨_, rfl, (spelled_quoted (fun _ => rfl) text).mono fun c ends => by
    simp only [endsName, Bool.and_eq_true] at ends
    exact ends.2⟩

theorem spelled_plain {name : String} (plain : Printing.isPlain name.toList) :
    Spelled endsName name.toList [⟨word name.toList, name⟩] := by
  cases letters : name.toList with
  | nil => simp [letters, Printing.isPlain] at plain
  | cons c rest =>
    simp only [letters, Printing.isPlain, Bool.and_eq_true, List.all_eq_true] at plain
    have spelled := spelled_word plain.1 plain.2
    rw [← letters, String.ofList_toList] at spelled
    rw [← letters]
    apply spelled.mono
    intro d ends
    simp only [endsName, Bool.and_eq_true] at ends
    exact ends.1

/-- A printed name is one word that is a name. -/
theorem spelled_name (name : String) :
    ∃ word : Word, word.IsName name ∧ Spelled endsName (Printing.name name) [word] := by
  unfold Printing.name
  split
  · rename_i plain
    simp only [Bool.and_eq_true, Option.isNone_iff_eq_none] at plain
    refine ⟨_, .inl ?_, spelled_plain plain.1⟩
    simp only [word, plain.2, String.ofList_toList]
  · obtain ⟨word, quoted, spelled⟩ := spelled_quotedName name
    exact ⟨word, .inr quoted, spelled⟩

/-- A printed entity is one word that stands for it, reserved or not. -/
theorem spelled_entity (name : String) :
    ∃ word : Word, word.StandsFor name ∧ Spelled endsName (Printing.entity name) [word] := by
  unfold Printing.entity
  split
  · rename_i plain
    refine ⟨_, ?_, spelled_plain plain⟩
    cases reserved : Keyword.ofWord? name.toList with
    | none => exact .inl (.inl (by simp only [word, reserved, String.ofList_toList]))
    | some keyword => exact .inr ⟨keyword, by simp only [word, reserved], rfl⟩
  · obtain ⟨word, quoted, spelled⟩ := spelled_quotedName name
    exact ⟨word, .inl (.inr quoted), spelled⟩

/-- The form of the names of parameters. -/
def IsMarker : List Char → Prop
  | [] => False
  | c :: rest => isNameStart c ∧ ∀ d ∈ rest, isMarkerPart d

theorem spelled_parameter {name : String} (marker : IsMarker name.toList) :
    ∃ word : Word, word.token = .parameter name ∧
      Spelled endsWord (':' :: name.toList) [word] := by
  refine ⟨⟨.parameter name, _⟩, rfl, Spelled.token fun after starts => ?_⟩
  cases letters : name.toList with
  | nil => simp [letters, IsMarker] at marker
  | cons c rest =>
    rw [letters] at marker
    have stops : Starts (fun d => !isMarkerPart d) after := starts.mono (of_endsWord rfl)
    have name : String.ofList (c :: rest) = name := by rw [← letters, String.ofList_toList]
    change special ':' (c :: (rest ++ after)) = _
    simp only [special, marker.1, ↓reduceIte, takeWhile_append_of_starts marker.2 stops, name]

/-! ### Numbers -/

theorem not_isDigit_of_endsWord (c : Char) (ends : endsWord c) : !c.isDigit :=
  @of_endsWord (fun d => !d.isDigit) rfl c ends

/-- Digits in front of the end of a word are an integer, unless it is too large. -/
theorem number_digits {c : Char} {rest after : List Char} (digits : ∀ d ∈ rest, d.isDigit)
    (ends : Starts endsWord after) :
    number c (rest ++ after) =
      if Nat.ofDigitChars 10 (c :: rest) 0 ≤ largestInteger then
        (.token (.integer (Nat.ofDigitChars 10 (c :: rest) 0)), rest.length)
      else (.fault (.numberOutOfRange (String.ofList (c :: rest))), rest.length) := by
  have stops : Starts (fun d => !d.isDigit) after := ends.mono not_isDigit_of_endsWord
  have noPoint : ∀ more, after ≠ '.' :: more := by
    rintro more rfl
    exact absurd (ends '.' rfl) (by decide)
  simp only [number, takeWhile_append_of_starts digits stops,
    dropWhile_append_of_starts digits stops]

/-- Digits on both sides of a point are a decimal number. -/
theorem number_decimal {c : Char} {whole fraction after : List Char}
    (digits : ∀ d ∈ whole, d.isDigit) (further : ∀ d ∈ fraction, d.isDigit)
    (nonempty : fraction ≠ []) (ends : Starts endsWord after) :
    number c (whole ++ '.' :: fraction ++ after) =
      (.token (.decimal ((Decimal.ofDigits (c :: whole) fraction).nearest false)),
        (whole ++ '.' :: fraction).length) := by
  have stops : Starts (fun d => !d.isDigit) after := ends.mono not_isDigit_of_endsWord
  have point : Starts (fun d => !d.isDigit) ('.' :: (fraction ++ after)) := Starts.cons rfl _
  simp only [number, List.append_assoc, List.cons_append, takeWhile_append_of_starts digits point,
    dropWhile_append_of_starts digits point, takeWhile_append_of_starts further stops, nonempty,
    ↓reduceIte, List.length_append, List.length_cons]
  congr 1
  omega

/-- A numeral: its text starts with a digit and is one word. -/
structure Numeral (text : List Char) (token : Token) : Prop where
  starts : ∃ c rest, text = c :: rest ∧ c.isDigit
  spelled : Spelled endsWord text [⟨token, String.ofList text⟩]

/-- The digits of an integer read as the integer. -/
theorem exists_digits (value : Nat) : ∃ c rest, Nat.toDigits 10 value = c :: rest ∧ c.isDigit ∧
    (∀ d ∈ rest, d.isDigit) ∧ Nat.ofDigitChars 10 (c :: rest) 0 = value := by
  obtain ⟨c, rest, shown⟩ := List.exists_cons_of_ne_nil (@Nat.toDigits_ne_nil value 10)
  have digits : ∀ d ∈ c :: rest, d.isDigit := fun d found =>
    Nat.isDigit_of_mem_toDigits (by decide) (by decide) (shown ▸ found)
  obtain ⟨digit, others⟩ := List.forall_mem_cons.mp digits
  exact ⟨c, rest, shown, digit, others, by rw [← shown, Nat.ofDigitChars_ten_toDigits]⟩

theorem numeral_integer {value : Nat} (bound : value ≤ largestInteger) :
    Numeral (Nat.toDigits 10 value) (.integer value) := by
  obtain ⟨c, rest, shown, digit, others, read⟩ := exists_digits value
  rw [shown]
  refine ⟨⟨c, rest, rfl, digit⟩, Spelled.token fun after ends => ?_⟩
  rw [front_digit digit, number_digits others ends, read, if_pos bound]

theorem numeral_decimal {whole fraction : List Char} (nonempty : whole ≠ [])
    (behind : fraction ≠ []) (digits : ∀ d ∈ whole, d.isDigit)
    (further : ∀ d ∈ fraction, d.isDigit) :
    Numeral (whole ++ '.' :: fraction)
      (.decimal ((Decimal.ofDigits whole fraction).nearest false)) := by
  cases whole with
  | nil => exact absurd rfl nonempty
  | cons c rest =>
    refine ⟨⟨c, _, rfl, digits c List.mem_cons_self⟩, Spelled.token fun after ends => ?_⟩
    rw [front_digit (digits c List.mem_cons_self)]
    exact number_decimal (fun d found => digits d (List.mem_cons_of_mem c found)) further behind
      ends

/-- The words of a numeral with a sign. -/
def signedWords (negative : Bool) (word : Word) : List Word :=
  if negative then [Symbol.minus.word, word] else [word]

theorem Numeral.signed {text : List Char} {token : Token} (numeral : Numeral text token)
    (negative : Bool) :
    Spelled endsWord (Binary64.signed negative text)
      (signedWords negative ⟨token, String.ofList text⟩) := by
  cases negative with
  | false => exact numeral.spelled
  | true =>
    obtain ⟨c, rest, shown, digit⟩ := numeral.starts
    have spelled := numeral.spelled
    rw [shown] at spelled ⊢
    exact spelled_minus.append spelled digit

/-- The text of an integer is its sign and its digits. -/
theorem toList_toString_int (value : Int) :
    (toString value).toList =
      Binary64.signed (decide (value < 0)) (Nat.toDigits 10 value.natAbs) := by
  rcases value with value | value
  · change (Nat.repr value).toList = _
    simp [Binary64.signed, Nat.toList_repr]
  · change ("-" ++ Nat.repr (value + 1)).toList = _
    have negative : Int.negSucc value < 0 := Int.negSucc_lt_zero value
    simp [Binary64.signed, negative, Nat.toList_repr]

end Lexing

end QueryGuard
