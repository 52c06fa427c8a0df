import QueryGuard.Proofs.Reading.Spelling
/-!
The pieces that a text is cut into: white space, comments and the spellings of tokens, each with what may
follow it. `front` takes exactly the piece that a text starts with.
-/

set_option autoImplicit false

namespace QueryGuard

/-- What is read back between quotes was quoted, and no further quote follows. -/
theorem Text.unquote_ok {quote : Char} {source text after : List Char}
    (read : unquote quote source = some (text, after)) :
    source = doubled quote text ++ quote :: after ∧ after.head? ≠ some quote := by
  fun_induction unquote quote source generalizing text with
  | case1 => cases read
  | case2 =>
    obtain ⟨rfl, rfl⟩ := Prod.mk.inj (Option.some.inj read)
    exact ⟨rfl, by simp⟩
  | case3 c other => cases read
  | case4 rest ih =>
    obtain ⟨⟨inner, _⟩, found, same⟩ := Option.map_eq_some_iff.mp read
    obtain ⟨rfl, rfl⟩ := Prod.mk.inj same
    obtain ⟨rfl, closed⟩ := ih found
    exact ⟨by simp [doubled], closed⟩
  | case5 d rest other =>
    obtain ⟨rfl, rfl⟩ := Prod.mk.inj (Option.some.inj read)
    exact ⟨rfl, by simpa using other⟩
  | case6 c d rest other ih =>
    obtain ⟨⟨inner, _⟩, found, same⟩ := Option.map_eq_some_iff.mp read
    obtain ⟨rfl, rfl⟩ := Prod.mk.inj same
    obtain ⟨split, closed⟩ := ih found
    exact ⟨by simp [doubled, other, split], closed⟩

namespace Lexing

/-- A text is a run of characters of a kind and what follows the run. -/
theorem exists_run (kind : Char → Bool) (text : List Char) :
    ∃ run after, text = run ++ after ∧ (∀ c ∈ run, kind c) ∧ Starts (fun c => !kind c) after := by
  refine ⟨text.takeWhile kind, text.dropWhile kind, List.takeWhile_append_dropWhile.symm,
    List.all_eq_true.mp List.all_takeWhile, ?_⟩
  intro c first
  have stops := List.head?_dropWhile_not kind text
  rw [Option.mem_def.mp first] at stops
  simpa using stops

theorem starts_anything (text : List Char) : Starts anything text := fun _ _ => rfl

theorem Starts.of_cons {kind : Char → Bool} {text : List Char}
    (first : ∀ c rest, text = c :: rest → kind c) : Starts kind text := by
  intro c found
  obtain ⟨rest, split⟩ := List.head?_eq_some_iff.mp found
  exact first c rest split

/-- The end of a comment does not stand in the text. -/
def Unclosed (body : List Char) : Prop := ¬ ['*', '/'] <:+: body

instance (body : List Char) : Decidable (Unclosed body) :=
  inferInstanceAs (Decidable (¬ ['*', '/'] <:+: body))

theorem unclosed_cons {c : Char} {body : List Char} :
    Unclosed (c :: body) ↔ (c = '*' → body.head? ≠ some '/') ∧ Unclosed body := by
  have first : ['*', '/'] <+: c :: body ↔ c = '*' ∧ body.head? = some '/' := by
    cases body <;> simp [eq_comm]
  rw [Unclosed, List.infix_cons_iff, not_or, first, not_and, Unclosed]

/-- A comment is closed by the first of its ends. -/
theorem commentLength?_eq_some {text : List Char} {length : Nat} :
    commentLength? text = some length ↔
      ∃ body after, text = body ++ '*' :: '/' :: after ∧ Unclosed body ∧ length = body.length + 2 := by
  fun_induction commentLength? text generalizing length with
  | case1 after =>
    constructor
    · intro found
      exact ⟨[], after, rfl, by simp [Unclosed], (Option.some.inj found).symm⟩
    · rintro ⟨body, after', split, unclosed, rfl⟩
      rcases body with _ | ⟨c, body⟩
      · rfl
      · obtain ⟨rfl, inner⟩ := List.cons.inj split
        rcases body with _ | ⟨d, body⟩
        · exact absurd (List.cons.inj inner).1 (by decide)
        · obtain ⟨rfl, _⟩ := List.cons.inj inner
          exact absurd rfl ((unclosed_cons.mp unclosed).1 rfl)
  | case2 c rest other ih =>
    constructor
    · intro found
      obtain ⟨size, inner, rfl⟩ := Option.map_eq_some_iff.mp found
      obtain ⟨body, after, rfl, unclosed, rfl⟩ := ih.mp inner
      refine ⟨c :: body, after, rfl, unclosed_cons.mpr ⟨fun star slash => ?_, unclosed⟩, rfl⟩
      obtain ⟨body, rfl⟩ := List.head?_eq_some_iff.mp slash
      exact other _ star rfl
    · rintro ⟨body, after, split, unclosed, rfl⟩
      rcases body with _ | ⟨d, body⟩
      · obtain ⟨rfl, rfl⟩ := List.cons.inj split
        exact (other after rfl rfl).elim
      · obtain ⟨rfl, rfl⟩ := List.cons.inj split
        rw [ih.mpr ⟨body, after, rfl, (unclosed_cons.mp unclosed).2, rfl⟩]
        rfl
  | case3 =>
    constructor
    · intro found
      cases found
    · rintro ⟨body, after, split, _⟩
      cases body <;> cases split

/-- A spelling of a symbol, and the characters that may follow it. -/
inductive Sign : List Char → Symbol → (Char → Bool) → Prop where
  | equal : Sign ['='] .equal anything
  | notEqual : Sign ['<', '>'] .notEqual anything
  | bangEqual : Sign ['!', '='] .notEqual anything
  | lessEqual : Sign ['<', '='] .lessEqual anything
  | greaterEqual : Sign ['>', '='] .greaterEqual anything
  | less : Sign ['<'] .less fun c => c ≠ '>' && c ≠ '='
  | greater : Sign ['>'] .greater fun c => c ≠ '='
  | minus : Sign ['-'] .minus fun c => c ≠ '-'
  | dot : Sign ['.'] .dot anything
  | comma : Sign [','] .comma anything
  | openParen : Sign ['('] .openParen anything
  | closeParen : Sign [')'] .closeParen anything

/-- A quote, and the token of what stands between two of them. -/
inductive Quotation : Char → (String → Token) → Prop where
  | name : Quotation '"' .quotedName
  | string : Quotation '\'' .string

/-- A text is one piece in front of another text: a gap or the spelling of a token. No longer start of
the two together is one. -/
inductive Piece : List Char → List Char → Front → Prop where
  | spaces {c : Char} {run after : List Char} (all : ∀ d ∈ c :: run, isSpace d)
      (stops : Starts (fun d => !isSpace d) after) : Piece (c :: run) after .gap
  | line {body after : List Char} (all : ∀ d ∈ body, d ≠ '\n')
      (stops : Starts (fun d => d = '\n') after) : Piece ('-' :: '-' :: body) after .gap
  | block {body after : List Char} (unclosed : Unclosed body) :
      Piece ('/' :: '*' :: (body ++ ['*', '/'])) after .gap
  | word {c : Char} {parts after : List Char} (start : isNameStart c)
      (all : ∀ d ∈ parts, isNamePart d) (stops : Starts (fun d => !isNamePart d) after) :
      Piece (c :: parts) after (.token (word (c :: parts)))
  | integer {c : Char} {digits after : List Char} (digit : c.isDigit)
      (all : ∀ d ∈ digits, d.isDigit) (stops : Starts (fun d => !d.isDigit) after)
      (whole : ∀ more, after = '.' :: more → Starts (fun d => !d.isDigit) more)
      (bound : Nat.ofDigitChars 10 (c :: digits) 0 ≤ largestInteger) :
      Piece (c :: digits) after (.token (.integer (Nat.ofDigitChars 10 (c :: digits) 0)))
  | decimal {c d : Char} {whole fraction after : List Char} (digit : c.isDigit)
      (allWhole : ∀ e ∈ whole, e.isDigit) (allFraction : ∀ e ∈ d :: fraction, e.isDigit)
      (stops : Starts (fun e => !e.isDigit) after) :
      Piece (c :: (whole ++ '.' :: d :: fraction)) after
        (.token (.decimal ((Decimal.ofDigits (c :: whole) (d :: fraction)).nearest false)))
  | quoted {quote : Char} {token : String → Token} {text after : List Char}
      (quotes : Quotation quote token) (closed : after.head? ≠ some quote) :
      Piece (Text.quoted quote text) after (.token (token (String.ofList text)))
  | marker {c : Char} {parts after : List Char} (start : isNameStart c)
      (all : ∀ d ∈ parts, isMarkerPart d) (stops : Starts (fun d => !isMarkerPart d) after) :
      Piece (':' :: c :: parts) after (.token (.parameter (String.ofList (c :: parts))))
  | sign {text after : List Char} {symbol : Symbol} {edge : Char → Bool}
      (sign : Sign text symbol edge) (stops : Starts edge after) :
      Piece text after (.token (.symbol symbol))

theorem front_special {c : Char} (space : isSpace c = false) (name : isNameStart c = false)
    (digit : c.isDigit = false) (rest : List Char) : front c rest = special c rest := by
  simp only [front, space, name, digit, Bool.false_eq_true, ↓reduceIte]

/-- The front of a text is the piece that it starts with. -/
theorem Piece.front_eq {text after : List Char} {found : Front} (piece : Piece text after found) :
    ∃ c rest, text = c :: rest ∧ front c (rest ++ after) = (found, rest.length) := by
  cases piece with
  | @spaces c run _ all stops =>
    obtain ⟨space, allRun⟩ := List.forall_mem_cons.mp all
    refine ⟨c, run, rfl, ?_⟩
    rw [front_space space, takeWhile_append_of_starts allRun stops]
  | @line body _ all stops =>
    refine ⟨'-', '-' :: body, rfl, ?_⟩
    have body_ : (body ++ after).takeWhile (· ≠ '\n') = body :=
      takeWhile_append_of_starts (by simpa using all) (stops.mono (by simp))
    show (Front.gap, 1 + ((body ++ after).takeWhile (· ≠ '\n')).length) = _
    rw [body_, List.length_cons, Nat.add_comm]
  | @block body _ unclosed =>
    refine ⟨'/', '*' :: (body ++ ['*', '/']), rfl, ?_⟩
    have closed : commentLength? (body ++ ['*', '/'] ++ after) = some (body.length + 2) :=
      commentLength?_eq_some.mpr ⟨body, after, by simp, unclosed, rfl⟩
    show special '/' ('*' :: (body ++ ['*', '/'] ++ after)) = _
    simp only [special, closed]
    simp [Nat.add_comm]
  | @word c parts _ start all stops =>
    refine ⟨c, parts, rfl, ?_⟩
    simp only [front, not_isSpace_of_isNameStart start, start, Bool.false_eq_true, ↓reduceIte,
      takeWhile_append_of_starts all stops]
  | @integer c digits _ digit all stops whole bound =>
    refine ⟨c, digits, rfl, ?_⟩
    rw [front_digit digit, number, takeWhile_append_of_starts all stops,
      dropWhile_append_of_starts all stops]
    split
    · rename_i more
      have none : more.takeWhile Char.isDigit = [] := by
        rw [← List.nil_append more]
        exact takeWhile_append_of_starts (by simp) (whole more rfl)
      simp only [none, bound, ↓reduceIte]
    · simp only [bound, ↓reduceIte]
  | @decimal c d whole fraction _ digit allWhole allFraction stops =>
    refine ⟨c, whole ++ '.' :: d :: fraction, rfl, ?_⟩
    have point : Starts (fun e => !e.isDigit) ('.' :: (d :: fraction ++ after)) := Starts.cons rfl _
    rw [front_digit digit, List.append_assoc, List.cons_append, number,
      takeWhile_append_of_starts allWhole point, dropWhile_append_of_starts allWhole point]
    split
    · rename_i more same
      obtain rfl := (List.cons.inj same).2
      rw [takeWhile_append_of_starts allFraction stops]
      simp [Nat.add_assoc, Nat.add_comm]
    · rename_i other
      exact (other _ rfl).elim
  | @quoted quote token text _ quotes closed =>
    obtain ⟨fault, reads⟩ : ∃ fault, ∀ rest, front quote rest = quotation quote token fault rest := by
      cases quotes with
      | name => exact ⟨.unterminatedName, fun _ => rfl⟩
      | string => exact ⟨.unterminatedString, fun _ => rfl⟩
    refine ⟨quote, Text.doubled quote text ++ [quote], rfl, ?_⟩
    rw [reads, quotation, List.append_assoc, List.singleton_append, Text.unquote_doubled quote text after closed]
    simp only [List.length_append, List.length_cons, List.length_nil]
    congr 1
    omega
  | @marker c parts _ start all stops =>
    refine ⟨':', c :: parts, rfl, ?_⟩
    show (if isNameStart c then (Front.token (.parameter (String.ofList
      (c :: (parts ++ after).takeWhile isMarkerPart))),
        (c :: (parts ++ after).takeWhile isMarkerPart).length) else _) = _
    rw [if_pos start, takeWhile_append_of_starts all stops]
  | @sign _ _ symbol edge sign stops =>
    cases sign with
    | less | greater | minus =>
      refine ⟨_, _, rfl, ?_⟩
      cases after with
      | nil => rfl
      | cons d rest =>
        have other := stops d rfl
        rw [front_special rfl rfl rfl]
        simp_all [special]
    | _ => exact ⟨_, _, rfl, rfl⟩

/-- What `front` finds at the start of a text: its first piece, or a fault inside it. -/
inductive Starting (c : Char) (rest : List Char) : Front × Nat → Prop where
  | piece (tail after : List Char) {found : Front} {length : Nat} (split : rest = tail ++ after)
      (size : tail.length = length) (piece : Piece (c :: tail) after found) :
      Starting c rest (found, length)
  | fault {fault : LexicalFault} {length : Nat} (within : length ≤ rest.length) :
      Starting c rest (.fault fault, length)

theorem starting_number {c : Char} (digit : c.isDigit) (rest : List Char) :
    Starting c rest (number c rest) := by
  obtain ⟨digits, after, rfl, all, stops⟩ := exists_run Char.isDigit rest
  rw [number, takeWhile_append_of_starts all stops, dropWhile_append_of_starts all stops]
  have integer (whole : ∀ more, after = '.' :: more → Starts (fun d => !d.isDigit) more) :
      Starting c (digits ++ after)
        (if Nat.ofDigitChars 10 (c :: digits) 0 ≤ largestInteger then
          (.token (.integer (Nat.ofDigitChars 10 (c :: digits) 0)), digits.length)
        else (.fault (.numberOutOfRange (String.ofList (c :: digits))), digits.length)) := by
    split
    · rename_i bound
      exact .piece digits after rfl rfl (.integer digit all stops whole bound)
    · exact .fault (by simp)
  split
  · rename_i more
    obtain ⟨fraction, after, rfl, allFraction, ends⟩ := exists_run Char.isDigit more
    rw [takeWhile_append_of_starts allFraction ends]
    cases fraction with
    | nil =>
      refine integer fun more same => ?_
      obtain rfl := (List.cons.inj same).2
      exact ends
    | cons d fraction =>
      refine .piece (digits ++ '.' :: d :: fraction) after ?_ ?_
        (.decimal digit all allFraction ends)
      · simp
      · simp only [List.length_append, List.length_cons]
        omega
  · rename_i other
    exact integer fun more same => (other more same).elim

theorem starting_quotation {quote : Char} {token : String → Token} (quotes : Quotation quote token)
    (fault : LexicalFault) (rest : List Char) :
    Starting quote rest (quotation quote token fault rest) := by
  rw [quotation]
  split
  · rename_i text after read
    obtain ⟨rfl, closed⟩ := Text.unquote_ok read
    refine .piece (Text.doubled quote text ++ [quote]) after ?_ ?_
      (.quoted quotes closed)
    · simp
    · simp only [List.length_append, List.length_cons, List.length_nil]
      omega
  · exact .fault (Nat.le_refl _)

/-- A text that starts with a sign, of which the rest starts as it may. -/
theorem starting_sign {c : Char} (tail after : List Char) {symbol : Symbol} {edge : Char → Bool}
    (sign : Sign (c :: tail) symbol edge) (stops : Starts edge after) :
    Starting c (tail ++ after) (.token (.symbol symbol), tail.length) :=
  .piece tail after rfl rfl (.sign sign stops)

theorem starting_special (c : Char) (rest : List Char) : Starting c rest (special c rest) := by
  rw [special.eq_def]
  split
  · exact starting_quotation .name _ _
  · exact starting_quotation .string _ _
  · rename_i comment
    obtain ⟨body, after, rfl, all, stops⟩ := exists_run (· ≠ '\n') comment
    rw [takeWhile_append_of_starts all stops]
    exact .piece ('-' :: body) after rfl (Nat.add_comm _ _)
      (.line (by simpa using all) (stops.mono (by simp)))
  · rename_i comment
    split
    · rename_i length closed
      obtain ⟨body, after, rfl, unclosed, rfl⟩ := commentLength?_eq_some.mp closed
      refine .piece ('*' :: (body ++ ['*', '/'])) after ?_ ?_ (.block unclosed)
      · simp
      · simp [Nat.add_comm]
    · exact .fault (Nat.le_refl _)
  · rename_i d more
    split
    · rename_i start
      obtain ⟨parts, after, rfl, all, stops⟩ := exists_run isMarkerPart more
      dsimp only
      rw [takeWhile_append_of_starts all stops]
      exact .piece (d :: parts) after rfl rfl (.marker start all stops)
    · exact .fault (Nat.zero_le _)
  · exact starting_sign [_] _ .notEqual (starts_anything _)
  · exact starting_sign [_] _ .lessEqual (starts_anything _)
  · exact starting_sign [_] _ .greaterEqual (starts_anything _)
  · exact starting_sign [_] _ .bangEqual (starts_anything _)
  · exact starting_sign [] rest .equal (starts_anything rest)
  · rename_i notGreater notEqual
    refine starting_sign [] rest .less (.of_cons fun d tail same => ?_)
    have greater : d ≠ '>' := fun is => notGreater tail (is ▸ same)
    have equal : d ≠ '=' := fun is => notEqual tail (is ▸ same)
    simp [greater, equal]
  · rename_i notEqual
    refine starting_sign [] rest .greater (.of_cons fun d tail same => ?_)
    exact decide_eq_true fun is => notEqual tail (is ▸ same)
  · rename_i notMinus
    refine starting_sign [] rest .minus (.of_cons fun d tail same => ?_)
    exact decide_eq_true fun is => notMinus tail (is ▸ same)
  · exact starting_sign [] rest .dot (starts_anything rest)
  · exact starting_sign [] rest .comma (starts_anything rest)
  · exact starting_sign [] rest .openParen (starts_anything rest)
  · exact starting_sign [] rest .closeParen (starts_anything rest)
  · exact .fault (Nat.zero_le _)

theorem starting_front (c : Char) (rest : List Char) : Starting c rest (front c rest) := by
  rw [front]
  split
  · rename_i space
    obtain ⟨run, after, rfl, all, stops⟩ := exists_run isSpace rest
    rw [takeWhile_append_of_starts all stops]
    exact .piece run after rfl rfl (.spaces (List.forall_mem_cons.mpr ⟨space, all⟩) stops)
  · split
    · rename_i start
      obtain ⟨parts, after, rfl, all, stops⟩ := exists_run isNamePart rest
      dsimp only
      rw [takeWhile_append_of_starts all stops]
      exact .piece parts after rfl rfl (.word start all stops)
    · split
      · exact starting_number ‹_› rest
      · exact starting_special c rest

/-! ### Other text behind a piece -/

theorem Starts.of_append {kind : Char → Bool} {text after : List Char}
    (starts : Starts kind (text ++ after)) : Starts kind text := by
  cases text with
  | nil => exact .nil kind
  | cons c rest => exact fun d first => starts d first

/-- A piece stays one if the text behind it ends sooner. -/
theorem Piece.cut {text after rest : List Char} {found : Front}
    (piece : Piece text (after ++ rest) found) : Piece text after found := by
  cases piece with
  | spaces all stops => exact .spaces all stops.of_append
  | line all stops => exact .line all stops.of_append
  | block unclosed => exact .block unclosed
  | word start all stops => exact .word start all stops.of_append
  | integer digit all stops whole bound =>
    refine .integer digit all stops.of_append (fun more same => ?_) bound
    exact (whole (more ++ rest) (by rw [same]; rfl)).of_append
  | decimal digit allWhole allFraction stops =>
    exact .decimal digit allWhole allFraction stops.of_append
  | quoted quotes closed =>
    refine .quoted quotes fun first => closed ?_
    rw [List.head?_append, first, Option.some_or]
  | marker start all stops => exact .marker start all stops.of_append
  | sign sign stops => exact .sign sign stops.of_append

theorem Piece.alone {text after : List Char} {found : Front} (piece : Piece text after found) :
    Piece text [] found :=
  @Piece.cut text [] after found piece

theorem of_isSpace {kind : Char → Bool} (each : [' ', '\t', '\r', '\n', '\x0c'].all kind)
    (c : Char) (space : isSpace c) : kind c :=
  List.all_eq_true.mp each c (by simpa [isSpace, or_assoc] using space)

/-- White space may follow every token. -/
theorem Piece.spaced {text after other : List Char} {token : Token}
    (piece : Piece text after (.token token)) (space : Starts isSpace other) :
    Piece text other (.token token) := by
  cases piece with
  | word start all stops => exact .word start all (space.mono (of_isSpace rfl))
  | integer digit all stops whole bound =>
    refine .integer digit all (space.mono (of_isSpace rfl)) (fun more same => ?_) bound
    have point : isSpace '.' := space '.' (by rw [same]; rfl)
    exact absurd point (by decide)
  | decimal digit allWhole allFraction stops =>
    exact .decimal digit allWhole allFraction (space.mono (of_isSpace rfl))
  | @quoted quote token text _ quotes closed =>
    refine .quoted quotes fun first => ?_
    have ends : isSpace quote := space quote first
    cases quotes with
    | name => exact absurd ends (by decide)
    | string => exact absurd ends (by decide)
  | marker start all stops => exact .marker start all (space.mono (of_isSpace rfl))
  | sign sign stops =>
    refine .sign sign (space.mono (of_isSpace ?_))
    cases sign <;> rfl

end Lexing

end QueryGuard
