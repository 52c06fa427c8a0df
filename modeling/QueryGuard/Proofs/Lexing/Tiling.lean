import QueryGuard.Proofs.Lexing.Pieces
/-!
Lexemes tile their source: they stand in it one after another, with nothing but gaps between them, and
each is a token by itself. A source with a fault is tiled up to the fault.
-/

set_option autoImplicit false

namespace QueryGuard

namespace Lexing

/-! ### Sizes -/

theorem byteLength_append (text after : List Char) :
    byteLength (text ++ after) = byteLength text + byteLength after := by
  induction text with
  | nil => exact (Nat.zero_add _).symm
  | cons c rest ih =>
    show c.utf8Size + byteLength (rest ++ after) = c.utf8Size + byteLength rest + byteLength after
    rw [ih, Nat.add_assoc]

theorem utf8ByteSize_ofList (text : List Char) :
    (String.ofList text).utf8ByteSize = byteLength text := by
  induction text with
  | nil => rfl
  | cons c rest ih =>
    rw [String.ofList_cons, String.utf8ByteSize_append, ih, String.utf8ByteSize_singleton]
    rfl

theorem utf8ByteSize_eq (text : String) : text.utf8ByteSize = byteLength text.toList := by
  rw [← utf8ByteSize_ofList, String.ofList_toList]

/-- Of two beginnings of a text, the one with fewer bytes is a beginning of the other. -/
theorem prefix_of_byteLength_le {text first second : List Char} (before : first <+: text)
    (before' : second <+: text) (shorter : byteLength first ≤ byteLength second) :
    first <+: second := by
  rcases List.prefix_or_prefix_of_prefix before before' with inside | ⟨rest, rfl⟩
  · exact inside
  · cases rest with
    | nil => exact ⟨[], by simp⟩
    | cons c rest =>
      rw [byteLength_append] at shorter
      have positive := c.utf8Size_pos
      have counted : byteLength (c :: rest) = c.utf8Size + byteLength rest := rfl
      omega

/-! ### Pieces one by one -/

theorem Piece.not_isSpace {c : Char} {tail after : List Char} {token : Token}
    (piece : Piece (c :: tail) after (.token token)) : ¬ isSpace c := by
  intro space
  obtain ⟨_, _, same, starts⟩ := piece.front_eq
  obtain ⟨rfl, rfl⟩ := List.cons.inj same
  rw [front_space space] at starts
  cases starts

theorem scan_gap {text after : List Char} (piece : Piece text after .gap) (offset : Nat) :
    scan offset (text ++ after) = scan (offset + byteLength text) after := by
  obtain ⟨c, rest, rfl, starts⟩ := piece.front_eq
  rw [List.cons_append, scan, starts]
  dsimp only
  rw [List.take_left, List.drop_left]

theorem scan_token {text after : List Char} {token : Token}
    (piece : Piece text after (.token token)) (offset : Nat) :
    scan offset (text ++ after) =
      ⟨⟨token, String.ofList text, .between offset (offset + byteLength text)⟩ ::
          (scan (offset + byteLength text) after).lexemes,
        (scan (offset + byteLength text) after).failure⟩ := by
  obtain ⟨c, rest, rfl, starts⟩ := piece.front_eq
  rw [List.cons_append, scan, starts]
  dsimp only
  rw [List.take_left, List.drop_left]

/-- What holds of the empty text and of a fault, and is kept by pieces in front, holds of all texts. -/
theorem piece_induction {motive : List Char → Prop} (nil : motive [])
    (gap : ∀ text after, Piece text after .gap → motive after → motive (text ++ after))
    (token : ∀ text after token, Piece text after (.token token) → motive after →
      motive (text ++ after))
    (fault : ∀ c tail after fault, front c (tail ++ after) = (.fault fault, tail.length) →
      motive (c :: (tail ++ after)))
    (text : List Char) : motive text := by
  induction size : text.length using Nat.strongRecOn generalizing text with
  | ind size ih =>
    subst size
    cases text with
    | nil => exact nil
    | cons c rest =>
      generalize starts : front c rest = result
      have starting := starting_front c rest
      rw [starts] at starting
      cases starting with
      | @piece tail after found length split _ piece =>
        subst split
        have shorter : after.length < (c :: (tail ++ after)).length := by
          simp only [List.length_cons, List.length_append]
          omega
        cases found with
        | gap => exact gap _ _ piece (ih _ shorter after rfl)
        | token found => exact token _ _ found piece (ih _ shorter after rfl)
        | fault => cases piece
      | @fault found length within =>
        have split : rest = rest.take length ++ rest.drop length := (List.take_append_drop _ _).symm
        rw [split]
        apply fault
        rw [← split, starts, List.length_take_of_le within]

/-! ### Tiles -/

/-- Text without lexemes: white space, closed comments, and comments up to a line break, or to the end
of the text where that is the end of the source. -/
inductive IsGap (final : Bool) : List Char → Prop where
  | nil : IsGap final []
  | space {c : Char} {rest : List Char} (space : isSpace c) (after : IsGap final rest) :
      IsGap final (c :: rest)
  | block {body rest : List Char} (unclosed : Unclosed body) (after : IsGap final rest) :
      IsGap final ('/' :: '*' :: (body ++ '*' :: '/' :: rest))
  | line {body rest : List Char} (all : ∀ d ∈ body, d ≠ '\n')
      (ends : rest.head? = some '\n' ∨ final ∧ rest = []) (after : IsGap final rest) :
      IsGap final ('-' :: '-' :: (body ++ rest))

theorem IsGap.spaces {final : Bool} {run rest : List Char} (all : ∀ c ∈ run, isSpace c)
    (after : IsGap final rest) : IsGap final (run ++ rest) := by
  induction run with
  | nil => exact after
  | cons c run ih =>
    obtain ⟨space, others⟩ := List.forall_mem_cons.mp all
    exact .space space (ih others)

/-- A piece without a token and a gap behind it are one gap, unless a token follows at once to which the
piece is not meant to run. -/
theorem IsGap.of_piece {final : Bool} {text rest after : List Char}
    (piece : Piece text (rest ++ after) .gap) (gap : IsGap final rest)
    (ends : final ∨ ∃ c more, after = c :: more ∧ ¬ isSpace c) : IsGap final (text ++ rest) := by
  cases piece with
  | spaces all stops => exact gap.spaces all
  | @line body _ all stops =>
    refine .line all ?_ gap
    cases rest with
    | nil =>
      rcases ends with final | ⟨c, more, rfl, other⟩
      · exact .inr ⟨final, rfl⟩
      · have break_ : c = '\n' := by simpa using stops c rfl
        exact absurd (break_ ▸ rfl) other
    | cons d rest =>
      have break_ : d = '\n' := by simpa using stops d rfl
      exact .inl (congrArg some break_)
  | @block body _ unclosed =>
    have block := IsGap.block unclosed gap
    simpa using block

/-- A text consists of the lexemes, each a token by itself, and of gaps between them. -/
inductive Tiles : Nat → List Char → List Lexeme → Prop where
  | last {offset : Nat} {gap : List Char} (isGap : IsGap true gap) : Tiles offset gap []
  | next {offset : Nat} (gap : List Char) {text rest : List Char} {token : Token} {lexemes : List Lexeme}
      (isGap : IsGap false gap) (alone : Piece text [] (.token token))
      (after : Tiles (offset + byteLength gap + byteLength text) rest lexemes) :
      Tiles offset (gap ++ (text ++ rest))
        (⟨token, String.ofList text, .between (offset + byteLength gap)
          (offset + byteLength gap + byteLength text)⟩ :: lexemes)

theorem Tiles.behind_gap {text rest after : List Char} {offset : Nat} {lexemes : List Lexeme}
    (piece : Piece text (rest ++ after) .gap)
    (tiles : Tiles (offset + byteLength text) rest lexemes) : Tiles offset (text ++ rest) lexemes := by
  cases tiles with
  | last isGap => exact .last (isGap.of_piece piece (.inl rfl))
  | @next _ gap word more _ _ isGap alone tiles =>
    rw [List.append_assoc] at piece
    have ends : ∃ c others, word ++ more ++ after = c :: others ∧ ¬ isSpace c := by
      obtain ⟨c, tail, rfl, _⟩ := alone.front_eq
      exact ⟨c, _, rfl, alone.not_isSpace⟩
    have isGap := isGap.of_piece piece (.inr ends)
    rw [Nat.add_assoc offset, ← byteLength_append] at tiles ⊢
    rw [← List.append_assoc]
    exact .next _ isGap alone tiles

theorem Tiles.behind_token {text rest : List Char} {offset : Nat} {lexemes : List Lexeme} {token : Token}
    (alone : Piece text [] (.token token))
    (tiles : Tiles (offset + byteLength text) rest lexemes) :
    Tiles offset (text ++ rest)
      (⟨token, String.ofList text, .between offset (offset + byteLength text)⟩ :: lexemes) :=
  .next [] .nil alone tiles

/-- The scan of a text has come to a stop: at its end, or at a fault in front of the rest. -/
inductive Stopped (offset : Nat) : List Char → Option LexicalError → Prop where
  | done : Stopped offset [] none
  | fault {fault : LexicalFault} (text after : List Char) (nonempty : text ≠ []) :
      Stopped offset (text ++ after)
        (some ⟨fault, .between offset (offset + byteLength text)⟩)

/-- The lexemes of a scan tile the text up to where the scan stopped, and are the lexemes of that part. -/
theorem scan_covers (text : List Char) (offset : Nat) :
    ∃ covered rest, text = covered ++ rest ∧ Tiles offset covered (scan offset text).lexemes ∧
      scan offset covered = ⟨(scan offset text).lexemes, none⟩ ∧
      Stopped (offset + byteLength covered) rest (scan offset text).failure := by
  induction text using piece_induction generalizing offset with
  | nil =>
    rw [scan]
    exact ⟨[], [], rfl, .last .nil, by rw [scan], .done⟩
  | gap text after piece ih =>
    obtain ⟨covered, rest, rfl, tiles, whole, stopped⟩ := ih (offset + byteLength text)
    rw [scan_gap piece]
    refine ⟨text ++ covered, rest, (List.append_assoc _ _ _).symm, tiles.behind_gap piece, ?_, ?_⟩
    · rw [scan_gap piece.cut, whole]
    · rwa [byteLength_append, ← Nat.add_assoc]
  | token text after token piece ih =>
    obtain ⟨covered, rest, rfl, tiles, whole, stopped⟩ := ih (offset + byteLength text)
    rw [scan_token piece]
    refine ⟨text ++ covered, rest, (List.append_assoc _ _ _).symm, ?_, ?_, ?_⟩
    · exact tiles.behind_token piece.alone
    · rw [scan_token piece.cut, whole]
    · rwa [byteLength_append, ← Nat.add_assoc]
  | fault c tail after fault starts =>
    refine ⟨[], c :: (tail ++ after), rfl, ?_⟩
    rw [scan, scan, starts]
    dsimp only
    rw [List.take_left]
    exact ⟨.last .nil, rfl, .fault (c :: tail) after (List.cons_ne_nil _ _)⟩

end Lexing

/-! ### Places -/

/-- The span is that of a text, which is not empty, behind another. -/
def Span.IsOf (span : Span) (before text : String) : Prop :=
  text ≠ "" ∧ span = .between before.utf8ByteSize (before.utf8ByteSize + text.utf8ByteSize)

/-- One span ends before another starts. -/
def Span.Before : Span → Span → Prop
  | .between _ stop, .between start _ => stop ≤ start
  | _, _ => False

namespace Lexing

theorem Piece.ne_nil {text after : List Char} {found : Front} (piece : Piece text after found) :
    text ≠ [] := by
  obtain ⟨c, rest, rfl, _⟩ := piece.front_eq
  exact List.cons_ne_nil _ _

theorem Span.isOf_ofList {before text : List Char} (nonempty : text ≠ []) :
    (Span.between (byteLength before) (byteLength before + byteLength text)).IsOf
      (String.ofList before) (String.ofList text) := by
  refine ⟨fun empty => nonempty ?_, ?_⟩
  · simpa using congrArg String.toList empty
  · rw [utf8ByteSize_ofList, utf8ByteSize_ofList]

/-- Each lexeme stands where its span says. -/
theorem Tiles.placed {text : List Char} {offset : Nat} {lexemes : List Lexeme}
    (tiles : Tiles offset text lexemes) :
    ∀ lexeme ∈ lexemes, ∃ before word after, text = before ++ word ++ after ∧
      lexeme.text = String.ofList word ∧ Piece word [] (.token lexeme.token) ∧
      lexeme.span = .between (offset + byteLength before)
        (offset + byteLength before + byteLength word) := by
  induction tiles with
  | last => exact fun _ none => nomatch none
  | @next offset gap word rest token _ _ alone _ ih =>
    refine List.forall_mem_cons.mpr ⟨⟨gap, word, rest, by simp, rfl, alone, rfl⟩, ?_⟩
    intro lexeme member
    obtain ⟨before, found, after, rfl, spelled, piece, span⟩ := ih lexeme member
    refine ⟨gap ++ word ++ before, found, after, by simp, spelled, piece, ?_⟩
    rw [span, byteLength_append, byteLength_append]
    simp only [Nat.add_assoc]

/-- Each lexeme ends before the next starts. -/
theorem Tiles.increasing {text : List Char} {offset : Nat} {lexemes : List Lexeme}
    (tiles : Tiles offset text lexemes) :
    lexemes.Pairwise fun first second => first.span.Before second.span := by
  induction tiles with
  | last => exact .nil
  | next _ _ _ after ih =>
    refine List.pairwise_cons.mpr ⟨fun lexeme member => ?_, ih⟩
    obtain ⟨before, word, _, _, _, _, span⟩ := after.placed lexeme member
    rw [span]
    exact Nat.le_add_right _ _

/-- A token by itself is the only lexeme of its text. -/
theorem tokenize_alone {text : List Char} {token : Token} (alone : Piece text [] (.token token)) :
    tokenize (String.ofList text) =
      .ok [⟨token, String.ofList text, .between 0 (String.ofList text).utf8ByteSize⟩] := by
  have scanned := scan_token alone 0
  rw [List.append_nil, scan] at scanned
  rw [tokenize_ofList, scanned, utf8ByteSize_ofList, Nat.zero_add]

end Lexing

open Lexing

/-- The lexemes are what a source consists of: its tokens in their order with nothing but gaps between
them, at the places that their spans say, and each the only token of its text. -/
structure Tiled (source : String) (lexemes : List Lexeme) : Prop where
  tiles : Tiles 0 source.toList lexemes
  placed : ∀ lexeme ∈ lexemes, ∃ before after,
    source = before ++ lexeme.text ++ after ∧ lexeme.span.IsOf before lexeme.text
  increasing : lexemes.Pairwise fun first second => first.span.Before second.span
  alone : ∀ lexeme ∈ lexemes, tokenize lexeme.text =
    .ok [⟨lexeme.token, lexeme.text, .between 0 lexeme.text.utf8ByteSize⟩]

theorem Lexing.Tiles.tiled {source : String} {lexemes : List Lexeme}
    (tiles : Tiles 0 source.toList lexemes) : Tiled source lexemes where
  tiles := tiles
  placed lexeme member := by
    obtain ⟨before, word, after, split, spelled, piece, span⟩ := tiles.placed lexeme member
    refine ⟨String.ofList before, String.ofList after, ?_, ?_⟩
    · rw [spelled, ← String.ofList_append, ← String.ofList_append, ← split, String.ofList_toList]
    · rw [spelled, span, Nat.zero_add]
      exact Span.isOf_ofList piece.ne_nil
  increasing := tiles.increasing
  alone lexeme member := by
    obtain ⟨before, word, after, split, spelled, piece, span⟩ := tiles.placed lexeme member
    rw [spelled]
    exact tokenize_alone piece

theorem tiles_of_tokenize {source : String} {lexemes : List Lexeme}
    (tokens : tokenize source = .ok lexemes) : Tiles 0 source.toList lexemes := by
  obtain ⟨covered, rest, split, tiles, _, stopped⟩ := scan_covers source.toList 0
  rw [tokenize] at tokens
  change Tiles 0 covered (scan source).lexemes at tiles
  change Stopped _ rest (scan source).failure at stopped
  generalize (scan source).failure = failure at tokens stopped
  cases stopped with
  | done =>
    rw [List.append_nil] at split
    rw [split, ← Except.ok.inj tokens]
    exact tiles
  | fault => cases tokens

/-- A fault has its place in the source, and what stands before it has the lexemes that the scan came
to. -/
theorem fault_of_tokenize {source : String} {error : LexicalError}
    (fails : tokenize source = .error error) : ∃ before text after, source = before ++ text ++ after ∧
      error.span.IsOf before text ∧ tokenize before = .ok (scan source).lexemes := by
  obtain ⟨covered, rest, split, _, whole, stopped⟩ := scan_covers source.toList 0
  rw [tokenize] at fails
  change Stopped _ rest (scan source).failure at stopped
  generalize (scan source).failure = failure at fails stopped
  cases stopped with
  | done => cases fails
  | fault text after nonempty =>
    refine ⟨String.ofList covered, String.ofList text, String.ofList after, ?_, ?_, ?_⟩
    · rw [← String.ofList_append, ← String.ofList_append, List.append_assoc, ← split,
        String.ofList_toList]
    · rw [← Except.error.inj fails, Nat.zero_add]
      exact Span.isOf_ofList nonempty
    · rw [tokenize_ofList, whole]
      rfl

/-- The lexemes of a source tile it. A fault has its place in the source, and what stands before it has
the lexemes that the scan came to. -/
theorem tokenize_tiles (source : String) :
    match tokenize source with
    | .ok lexemes => Tiled source lexemes
    | .error error => ∃ before text after, source = before ++ text ++ after ∧
        error.span.IsOf before text ∧ tokenize before = .ok (scan source).lexemes := by
  cases tokens : tokenize source with
  | error error => exact fault_of_tokenize tokens
  | ok lexemes => exact (tiles_of_tokenize tokens).tiled

end QueryGuard
