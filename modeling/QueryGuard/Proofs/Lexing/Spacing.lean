import QueryGuard.Proofs.Lexing.Tiling
import QueryGuard.Proofs.Reading.Alike
/-!
White space and comments between lexemes do not matter: a source with other gaps has the same tokens,
and is read as the same query up to places.
-/

set_option autoImplicit false

namespace QueryGuard

namespace Lexing

/-- White space, and more of it and comments behind: what may stand between any two lexemes. -/
structure IsSpacing (gap : List Char) : Prop where
  starts : ∃ c rest, gap = c :: rest ∧ isSpace c
  isGap : IsGap false gap

/-- A text consists of the texts of the lexemes with spacing between them. -/
inductive Spaced : List Lexeme → List Char → Prop where
  | nil : Spaced [] []
  | single (lexeme : Lexeme) : Spaced [lexeme] lexeme.text.toList
  | cons (lexeme : Lexeme) {next : Lexeme} {lexemes : List Lexeme} {gap rest : List Char}
      (spacing : IsSpacing gap) (after : Spaced (next :: lexemes) rest) :
      Spaced (lexeme :: next :: lexemes) (lexeme.text.toList ++ (gap ++ rest))

/-- The text is that of the lexemes with spacing between them, and at its ends if it is wanted there. -/
def Respaces (lexemes : List Lexeme) (text : String) : Prop :=
  ∃ before body after, text.toList = before ++ (body ++ after) ∧
    (before = [] ∨ IsSpacing before) ∧ Spaced lexemes body ∧ (after = [] ∨ IsSpacing after)

theorem IsSpacing.starts_append {gap : List Char} (spacing : IsSpacing gap) (after : List Char) :
    Starts isSpace (gap ++ after) := by
  obtain ⟨c, rest, rfl, space⟩ := spacing.starts
  exact .cons space _

/-! ### Words -/

theorem Splits.behind_gap {text after : List Char} {words : List Word}
    (piece : Piece text after .gap) (splits : Splits after words) : Splits (text ++ after) words := by
  obtain ⟨c, rest, rfl, starts⟩ := piece.front_eq
  rw [List.cons_append]
  exact .gap starts (by rwa [List.drop_left])

/-- A gap in front of a text adds no word. -/
theorem spelled_gap {gap : List Char} (isGap : IsGap false gap) : Spelled anything gap [] := by
  induction isGap with
  | nil => exact Spelled.nil _
  | space space _ ih => exact fun after more _ splits => (ih after more (starts_anything _) splits).space space
  | @block body rest unclosed _ ih =>
    intro after more _ splits
    have behind := (ih after more (starts_anything _) splits).behind_gap (.block unclosed)
    simpa using behind
  | @line body rest all ends _ ih =>
    intro after more _ splits
    have stops : Starts (fun c => c = '\n') (rest ++ after) := by
      rcases ends with first | ⟨final, _⟩
      · obtain ⟨tail, rfl⟩ := List.head?_eq_some_iff.mp first
        exact .cons rfl _
      · cases final
    have behind := (ih after more (starts_anything _) splits).behind_gap (.line all stops)
    simpa using behind

/-- A token by itself is the same in front of white space. -/
theorem spelled_alone {text : List Char} {token : Token} (alone : Piece text [] (.token token)) :
    Spelled isSpace text [⟨token, String.ofList text⟩] := by
  obtain ⟨c, rest, rfl, _⟩ := alone.front_eq
  refine Spelled.token fun after starts => ?_
  obtain ⟨_, _, same, found⟩ := (alone.spaced starts).front_eq
  obtain ⟨rfl, rfl⟩ := List.cons.inj same
  exact found

theorem Tiles.spelled {text : List Char} {offset : Nat} {lexemes : List Lexeme}
    (tiles : Tiles offset text lexemes) :
    ∀ lexeme ∈ lexemes, Spelled isSpace lexeme.text.toList [lexeme.word] := by
  intro lexeme member
  obtain ⟨_, word, _, _, spelled, alone, _⟩ := tiles.placed lexeme member
  rw [Lexeme.word, spelled, String.toList_ofList]
  exact spelled_alone alone

theorem Spaced.spelled {lexemes : List Lexeme} {body : List Char} (spaced : Spaced lexemes body)
    (each : ∀ lexeme ∈ lexemes, Spelled isSpace lexeme.text.toList [lexeme.word]) :
    Spelled isSpace body (lexemes.map Lexeme.word) := by
  induction spaced with
  | nil => exact Spelled.nil _
  | single lexeme => exact each lexeme List.mem_cons_self
  | cons lexeme spacing _ ih =>
    obtain ⟨first, others⟩ := List.forall_mem_cons.mp each
    have behind := (spelled_gap spacing.isGap).appendAny (ih others)
    refine first.join behind fun after _ => ?_
    rw [List.append_assoc]
    exact spacing.starts_append _

/-- Spacing does not change what words a text is split into. -/
theorem Respaces.splits {lexemes : List Lexeme} {text : String} (respaces : Respaces lexemes text)
    (each : ∀ lexeme ∈ lexemes, Spelled isSpace lexeme.text.toList [lexeme.word]) :
    Splits text.toList (lexemes.map Lexeme.word) := by
  obtain ⟨before, body, after, split, ahead, spaced, behind⟩ := respaces
  have wordless : ∀ gap, gap = [] ∨ IsSpacing gap → Spelled anything gap [] := by
    rintro gap (rfl | spacing)
    · exact Spelled.nil _
    · exact spelled_gap spacing.isGap
  have starts : Starts isSpace after := by
    rcases behind with rfl | spacing
    · exact .nil _
    · simpa using spacing.starts_append []
  have whole := spaced.spelled each after [] starts (wordless after behind).splits
  rw [List.append_nil] at whole
  rw [split]
  exact wordless before ahead _ _ (starts_anything _) whole

end Lexing

open Lexing

/-- A text in which the lexemes of a source stand with other white space and comments between them has
the same tokens. It is read as the same query up to places, or fails for the same reason. -/
theorem Query.parse_respaced {source text : String} {lexemes : List Lexeme}
    (tokens : tokenize source = .ok lexemes) (respaces : Respaces lexemes text) :
    (∃ lexemes', tokenize text = .ok lexemes' ∧ lexemes'.map Lexeme.word = lexemes.map Lexeme.word) ∧
      ∀ depth, ((Query.parse text depth).map Query.unplaced).mapError SyntaxError.unplaced =
        ((Query.parse source depth).map Query.unplaced).mapError SyntaxError.unplaced := by
  obtain ⟨whole, words⟩ := (respaces.splits (tiles_of_tokenize tokens).spelled).scan 0
  have tokens' : tokenize text = .ok (scan text).lexemes := by
    rw [tokenize]
    change (scan text).failure = none at whole
    rw [whole]
  refine ⟨⟨_, tokens', words⟩, fun depth => ?_⟩
  rw [Query.parse, Query.parse, Parse.run, Parse.run, tokens, tokens']
  exact (Parse.Alike.statement depth).readAll words _ _

/-- A comment with a quote in it, and one to the end of its line, in front of an attribute that is named
as a reserved word is. -/
theorem Query.parse_respaced_commented : ∃ lexemes,
    tokenize "select a.By from A a" = .ok lexemes ∧
    Respaces lexemes "select a /* '*/ .\tBy -- it's\n from A a\n" ∧
    ∀ depth, ((Query.parse "select a /* '*/ .\tBy -- it's\n from A a\n" depth).map
        Query.unplaced).mapError SyntaxError.unplaced =
      ((Query.parse "select a.By from A a" depth).map Query.unplaced).mapError
        SyntaxError.unplaced := by
  have scanned : scan "select a.By from A a" = ⟨[⟨.keyword .select, "select", .between 0 6⟩,
      ⟨.name "a", "a", .between 7 8⟩, ⟨.symbol .dot, ".", .between 8 9⟩,
      ⟨.keyword .by, "By", .between 9 11⟩, ⟨.keyword .from, "from", .between 12 16⟩,
      ⟨.name "A", "A", .between 17 18⟩, ⟨.name "a", "a", .between 19 20⟩], none⟩ := by
    decide +kernel
  have tokens : tokenize "select a.By from A a" = .ok (scan "select a.By from A a").lexemes := by
    rw [tokenize, scanned]
  have single (c : Char) (space : isSpace c) : IsSpacing [c] :=
    ⟨⟨_, _, rfl, space⟩, .space space .nil⟩
  have block : IsSpacing " /* '*/ ".toList :=
    ⟨⟨_, _, rfl, rfl⟩, .space rfl (@IsGap.block false " '".toList [' '] (by decide) (.space rfl .nil))⟩
  have unbroken : '\n' ∉ " it's".toList := by decide
  have line : IsSpacing " -- it's\n ".toList :=
    ⟨⟨_, _, rfl, rfl⟩, .space rfl (@IsGap.line false " it's".toList ['\n', ' ']
      (fun d mem same => unbroken (same ▸ mem)) (.inl rfl) (.space rfl (.space rfl .nil)))⟩
  have respaces : Respaces (scan "select a.By from A a").lexemes
      "select a /* '*/ .\tBy -- it's\n from A a\n" := by
    rw [scanned]
    exact ⟨[], _, ['\n'], by decide, .inl rfl,
      .cons _ (single ' ' rfl) (.cons _ block (.cons _ (single '\t' rfl) (.cons _ line
        (.cons _ (single ' ' rfl) (.cons _ (single ' ' rfl) (.single _)))))),
      .inr (single '\n' rfl)⟩
  exact ⟨_, tokens, respaces, (parse_respaced tokens respaces).2⟩

end QueryGuard
