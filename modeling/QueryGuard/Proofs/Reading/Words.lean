import QueryGuard.Syntax.Lexing
/-!
What a text consists of, without the places: its words. Texts whose ends do not run into what
follows them can be put together.
-/

set_option autoImplicit false

namespace QueryGuard

/-- A token with the text that it was written as. -/
structure Word where
  token : Token
  text : String
deriving DecidableEq, Repr

def Lexeme.word (lexeme : Lexeme) : Word := ⟨lexeme.token, lexeme.text⟩

/-- The word of a reserved word in lower case. -/
def Keyword.word (keyword : Keyword) : Word := ⟨.keyword keyword, keyword.spelling⟩

/-- The word of a symbol as it is printed. -/
def Symbol.word (symbol : Symbol) : Word := ⟨.symbol symbol, symbol.spelling⟩

namespace Lexing

/-- A text is split into words and the gaps between them. -/
inductive Splits : List Char → List Word → Prop where
  | nil : Splits [] []
  | gap {c : Char} {rest : List Char} {length : Nat} {words : List Word}
      (starts : front c rest = (.gap, length)) (after : Splits (rest.drop length) words) :
      Splits (c :: rest) words
  | token {c : Char} {rest : List Char} {length : Nat} {token : Token} {words : List Word}
      (starts : front c rest = (.token token, length)) (after : Splits (rest.drop length) words) :
      Splits (c :: rest) (⟨token, String.ofList (c :: rest.take length)⟩ :: words)

/-- A text that is split into words has these lexemes, wherever it starts. -/
theorem Splits.scan {text : List Char} {words : List Word} (splits : Splits text words)
    (offset : Nat) :
    (Lexing.scan offset text).failure = none ∧
      (Lexing.scan offset text).lexemes.map Lexeme.word = words := by
  induction splits generalizing offset with
  | nil =>
    rw [Lexing.scan]
    exact ⟨rfl, rfl⟩
  | gap starts _ ih =>
    rw [Lexing.scan, starts]
    exact ih _
  | token starts _ ih =>
    rw [Lexing.scan, starts]
    exact ⟨(ih _).1, congrArg _ (ih _).2⟩

theorem front_space {c : Char} (space : isSpace c) (rest : List Char) :
    front c rest = (.gap, (rest.takeWhile isSpace).length) := by
  simp only [front, space, ↓reduceIte]

/-- White space in front of a text adds no word. -/
theorem Splits.space {c : Char} (space : isSpace c) {text : List Char} {words : List Word}
    (splits : Splits text words) : Splits (c :: text) words := by
  refine .gap (front_space space text) ?_
  cases splits with
  | nil => exact .nil
  | @gap c rest length _ starts after =>
    by_cases space : isSpace c
    · rw [front_space space, Prod.mk.injEq] at starts
      simpa only [List.takeWhile_cons, space, ↓reduceIte, List.length_cons, List.drop_succ_cons,
        starts.2] using after
    · simpa only [List.takeWhile_cons, space] using .gap starts after
  | @token c rest length _ _ starts after =>
    have word : ¬ isSpace c := fun space => by simp [front_space space] at starts
    simpa only [List.takeWhile_cons, word] using .token starts after

/-- The first character of a text, if there is one, is of the given kind. -/
def Starts (kind : Char → Bool) (text : List Char) : Prop := ∀ c ∈ text.head?, kind c

theorem Starts.nil (kind : Char → Bool) : Starts kind [] := by simp [Starts]

theorem Starts.cons {kind : Char → Bool} {c : Char} (holds : kind c) (rest : List Char) :
    Starts kind (c :: rest) := by simpa [Starts] using holds

theorem Starts.append {kind : Char → Bool} {text after : List Char} (first : Starts kind text)
    (second : Starts kind after) : Starts kind (text ++ after) := by
  cases text with
  | nil => exact second
  | cons c rest => exact first

theorem Starts.mono {kind kind' : Char → Bool} (weaker : ∀ c, kind c → kind' c)
    {text : List Char} (starts : Starts kind text) : Starts kind' text :=
  fun c found => weaker c (starts c found)

/-- Whether a word ends in front of the character whatever the word is. -/
def endsWord (c : Char) : Bool := c = ' ' || c = ',' || c = ')'

/-- Whether a name ends in front of the character. -/
def endsName (c : Char) : Bool := !isNamePart c && c ≠ '"'

def anything (_ : Char) : Bool := true

theorem of_endsWord {kind : Char → Bool} (each : [' ', ',', ')'].all kind) (c : Char)
    (ends : endsWord c) : kind c :=
  List.all_eq_true.mp each c (by simpa [endsWord, or_assoc] using ends)

theorem endsName_of_endsWord (c : Char) (ends : endsWord c) : endsName c := of_endsWord rfl c ends

theorem endsPart_of_endsWord (c : Char) (ends : endsWord c) : !isNamePart c := by
  have name := endsName_of_endsWord c ends
  rw [endsName, Bool.and_eq_true] at name
  exact name.1

/-- A text has the given words in front of every text that starts as it has to. -/
def Spelled (edge : Char → Bool) (text : List Char) (words : List Word) : Prop :=
  ∀ after more, Starts edge after → Splits after more → Splits (text ++ after) (words ++ more)

namespace Spelled

variable {E E' : Char → Bool} {text text' : List Char} {words words' : List Word}

theorem nil (E : Char → Bool) : Spelled E [] [] := fun _ _ _ splits => splits

theorem mono (spelled : Spelled E text words) (stronger : ∀ c, E' c → E c) :
    Spelled E' text words :=
  fun after more starts splits => spelled after more (starts.mono stronger) splits

theorem any (spelled : Spelled anything text words) : Spelled E text words :=
  spelled.mono fun _ _ => rfl

theorem of_eq (spelled : Spelled E text words) (same : text = text')
    (same' : words = words') : Spelled E text' words' := same ▸ same' ▸ spelled

theorem word (spelled : Spelled endsName text words) : Spelled endsWord text words :=
  spelled.mono endsName_of_endsWord

theorem join (first : Spelled E text words) (second : Spelled E' text' words')
    (meets : ∀ after, Starts E' after → Starts E (text' ++ after)) :
    Spelled E' (text ++ text') (words ++ words') := by
  intro after more starts splits
  rw [List.append_assoc, List.append_assoc]
  exact first _ _ (meets after starts) (second _ _ starts splits)

/-- Texts are put together where the second starts as the first has to end. -/
theorem append (first : Spelled E text words) {c : Char} {rest : List Char}
    (second : Spelled E' (c :: rest) words') (meets : E c) :
    Spelled E' (text ++ c :: rest) (words ++ words') :=
  first.join second fun after _ => Starts.cons meets (rest ++ after)

/-- Behind a text that may end anywhere there may be any other. -/
theorem appendAny (first : Spelled anything text words) (second : Spelled E text' words') :
    Spelled E (text ++ text') (words ++ words') :=
  first.join second fun _ _ _ _ => rfl

/-- A text of words that ends in front of a space, a comma or a parenthesis. -/
theorem appendWord (first : Spelled endsWord text words) (second : Spelled endsWord text' words')
    (meets : Starts endsWord text') : Spelled endsWord (text ++ text') (words ++ words') :=
  first.join second fun _ starts => meets.append starts

theorem space (spelled : Spelled E text words) : Spelled E (' ' :: text) words :=
  fun after more starts splits => (spelled after more starts splits).space rfl

theorem splits (spelled : Spelled E text words) : Splits text words := by
  simpa only [List.append_nil] using spelled [] [] (Starts.nil E) .nil

/-- A single token that is read wherever the edge is met. -/
theorem token {c : Char} {rest : List Char} {token : Token}
    (reads : ∀ after, Starts E after → front c (rest ++ after) = (.token token, rest.length)) :
    Spelled E (c :: rest) [⟨token, String.ofList (c :: rest)⟩] := by
  intro after more starts splits
  have here := Splits.token (reads after starts) (by simpa only [List.drop_left] using splits)
  rwa [List.take_left] at here

end Spelled

end Lexing

end QueryGuard
