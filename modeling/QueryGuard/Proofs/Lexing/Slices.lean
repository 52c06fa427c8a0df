import QueryGuard.Proofs.Places.Stretch
/-!
Slices of a source from the start of one of its lexemes to the end of another: they have the lexemes
in between, at the same distances from each other.
-/

set_option autoImplicit false

namespace QueryGuard

/-- The range at the same distance from one offset as it has from another. -/
def Span.shifted (old new : Nat) : Span → Span
  | .synthetic => .synthetic
  | .between start stop => .between (start - old + new) (stop - old + new)

/-- The lexeme with another place. -/
def Lexeme.relocate (f : Span → Span) (lexeme : Lexeme) : Lexeme :=
  ⟨lexeme.token, lexeme.text, f lexeme.span⟩

namespace Lexing

/-- The text consists of pieces, which have the lexemes. -/
inductive Scanned : Nat → List Char → List Lexeme → Prop where
  | nil {offset : Nat} : Scanned offset [] []
  | gap {offset : Nat} {text after : List Char} {lexemes : List Lexeme}
      (piece : Piece text after .gap) (rest : Scanned (offset + byteLength text) after lexemes) :
      Scanned offset (text ++ after) lexemes
  | token {offset : Nat} {text after : List Char} {token : Token} {lexemes : List Lexeme}
      (piece : Piece text after (.token token))
      (rest : Scanned (offset + byteLength text) after lexemes) :
      Scanned offset (text ++ after)
        (⟨token, String.ofList text, .between offset (offset + byteLength text)⟩ :: lexemes)

/-- Pieces are just what a scan without a fault goes through. -/
theorem scanned_iff {offset : Nat} {text : List Char} {lexemes : List Lexeme} :
    Scanned offset text lexemes ↔ scan offset text = ⟨lexemes, none⟩ := by
  constructor
  · intro scanned
    induction scanned with
    | nil => rw [scan]
    | gap piece _ ih => rw [scan_gap piece, ih]
    | token piece _ ih => rw [scan_token piece, ih]
  · intro found
    induction text using piece_induction generalizing offset lexemes with
    | nil =>
      rw [scan] at found
      obtain ⟨rfl, _⟩ := Scan.mk.inj found
      exact .nil
    | gap text after piece ih =>
      rw [scan_gap piece] at found
      exact .gap piece (ih found)
    | token text after token piece ih =>
      rw [scan_token piece] at found
      obtain ⟨rfl, whole⟩ := Scan.mk.inj found
      exact .token piece (ih (whole ▸ rfl))
    | fault c tail after fault starts =>
      rw [scan, starts] at found
      cases found

theorem tokenize_iff_scanned {source : String} {lexemes : List Lexeme} :
    tokenize source = .ok lexemes ↔ Scanned 0 source.toList lexemes := by
  rw [scanned_iff, tokenize]
  change _ ↔ QueryGuard.scan source = _
  generalize QueryGuard.scan source = found
  obtain ⟨known, _ | error⟩ := found <;> simp

theorem tokenize_ofList_of_scanned {text : List Char} {lexemes : List Lexeme}
    (scanned : Scanned 0 text lexemes) : tokenize (String.ofList text) = .ok lexemes :=
  tokenize_iff_scanned.mpr (by rwa [String.toList_ofList])

/-- A piece stays one if white space comes behind the text that follows it. -/
theorem Piece.extend {text after other : List Char} {found : Front} (piece : Piece text after found)
    (nonempty : after ≠ []) (space : Starts isSpace other) : Piece text (after ++ other) found := by
  obtain ⟨c, rest, rfl⟩ := List.exists_cons_of_ne_nil nonempty
  have starts : ∀ {kind : Char → Bool}, Starts kind (c :: rest) →
      Starts kind (c :: rest ++ other) := fun first => .cons (first c rfl) _
  cases piece with
  | spaces all stops => exact .spaces all (starts stops)
  | line all stops => exact .line all (starts stops)
  | block unclosed => exact .block unclosed
  | word start all stops => exact .word start all (starts stops)
  | integer digit all stops whole bound =>
    refine .integer digit all (starts stops) (fun more same => ?_) bound
    obtain ⟨rfl, rfl⟩ := List.cons.inj same
    cases rest with
    | nil => exact space.mono (of_isSpace rfl)
    | cons d rest => exact .cons (whole _ rfl d rfl) _
  | decimal digit allWhole allFraction stops =>
    exact .decimal digit allWhole allFraction (starts stops)
  | quoted quotes closed => exact .quoted quotes closed
  | marker start all stops => exact .marker start all (starts stops)
  | sign sign stops => exact .sign sign (starts stops)

/-- The same for a text that ends with the last of its lexemes. -/
inductive Run : Nat → List Char → List Lexeme → Prop where
  | last {offset : Nat} {text : List Char} {token : Token} (piece : Piece text [] (.token token)) :
      Run offset text [⟨token, String.ofList text, .between offset (offset + byteLength text)⟩]
  | gap {offset : Nat} {text after : List Char} {lexemes : List Lexeme}
      (piece : Piece text after .gap) (rest : Run (offset + byteLength text) after lexemes) :
      Run offset (text ++ after) lexemes
  | token {offset : Nat} {text after : List Char} {token : Token} {lexemes : List Lexeme}
      (piece : Piece text after (.token token))
      (rest : Run (offset + byteLength text) after lexemes) :
      Run offset (text ++ after)
        (⟨token, String.ofList text, .between offset (offset + byteLength text)⟩ :: lexemes)

/-- The first lexemes end with a text of their own. -/
theorem Scanned.take {offset : Nat} {text : List Char} {words others : List Lexeme}
    (scanned : Scanned offset text (words ++ others)) (nonempty : words ≠ []) :
    ∃ body after, text = body ++ after ∧ Run offset body words := by
  generalize whole : words ++ others = lexemes at scanned
  induction scanned generalizing words with
  | nil => exact absurd (List.append_eq_nil_iff.mp whole).1 nonempty
  | gap piece _ ih =>
    obtain ⟨body, after, rfl, run⟩ := ih nonempty whole
    exact ⟨_ ++ body, after, (List.append_assoc ..).symm, .gap piece.cut run⟩
  | @token _ text rest _ _ piece _ ih =>
    obtain ⟨first, words, rfl⟩ := List.exists_cons_of_ne_nil nonempty
    obtain rfl := (List.cons.inj whole).1
    by_cases single : words = []
    · subst single
      exact ⟨text, rest, rfl, .last piece.alone⟩
    · obtain ⟨body, after, rfl, run⟩ := ih single (List.cons.inj whole).2
      exact ⟨text ++ body, after, (List.append_assoc ..).symm, .token piece.cut run⟩

namespace Run

variable {offset : Nat} {text : List Char} {words words' : List Lexeme}

theorem scanned (run : Run offset text words) : Scanned offset text words := by
  induction run with
  | @last offset text token piece =>
    have alone : Scanned offset (text ++ []) [_] := .token piece .nil
    rwa [List.append_nil] at alone
  | gap piece _ ih => exact .gap piece ih
  | token piece _ ih => exact .token piece ih

theorem ne_nil (run : Run offset text words) : text ≠ [] ∧ words ≠ [] := by
  induction run with
  | last piece => exact ⟨piece.ne_nil, List.cons_ne_nil _ _⟩
  | gap piece _ ih => exact ⟨by simp [piece.ne_nil], ih.2⟩
  | token piece _ ih => exact ⟨by simp [piece.ne_nil], List.cons_ne_nil _ _⟩

/-- The lexemes end where the text does. -/
theorem stretch (run : Run offset text words) :
    ∃ start, offset ≤ start ∧ Grammar.Stretch words start (offset + byteLength text) := by
  induction run with
  | last piece =>
    exact ⟨_, Nat.le_refl _, .single rfl (Nat.lt_add_of_pos_right piece.byteLength_pos)⟩
  | gap piece _ ih =>
    obtain ⟨start, behind, stretch⟩ := ih
    rw [Nat.add_assoc, ← byteLength_append] at stretch
    exact ⟨start, by omega, stretch⟩
  | token piece _ ih =>
    obtain ⟨start, behind, stretch⟩ := ih
    rw [Nat.add_assoc, ← byteLength_append] at stretch
    exact ⟨_, Nat.le_refl _, .cons rfl (Nat.lt_add_of_pos_right piece.byteLength_pos) behind
      stretch⟩

/-- The last lexemes start with a text of their own. -/
theorem drop (run : Run offset text (words ++ words')) (nonempty : words' ≠ []) :
    ∃ before body, text = before ++ body ∧ Run (offset + byteLength before) body words' ∧
      Grammar.Stretch words' (offset + byteLength before) (offset + byteLength text) := by
  -- What comes behind further text comes behind this text too.
  have further : ∀ {offset text after words'},
      (∃ before body, after = before ++ body ∧
        Run (offset + byteLength text + byteLength before) body words' ∧
        Grammar.Stretch words' (offset + byteLength text + byteLength before)
          (offset + byteLength text + byteLength after)) →
      ∃ before body, text ++ after = before ++ body ∧ Run (offset + byteLength before) body words' ∧
        Grammar.Stretch words' (offset + byteLength before) (offset + byteLength (text ++ after)) := by
    rintro offset text after words' ⟨before, body, rfl, run, stretch⟩
    refine ⟨text ++ before, body, (List.append_assoc ..).symm, ?_, ?_⟩
    · rwa [byteLength_append, ← Nat.add_assoc]
    · rwa [byteLength_append text before, byteLength_append text, ← Nat.add_assoc, ← Nat.add_assoc]
  generalize whole : words ++ words' = lexemes at run
  induction run generalizing words with
  | @last offset text token piece =>
    rcases List.append_eq_singleton_iff.mp whole with ⟨_, rfl⟩ | ⟨_, empty⟩
    · refine ⟨[], text, rfl, .last piece, .single rfl ?_⟩
      exact Nat.lt_add_of_pos_right piece.byteLength_pos
    · exact absurd empty nonempty
  | gap _ _ ih => exact further (ih whole)
  | @token offset text after token lexemes piece rest ih =>
    cases words with
    | nil =>
      obtain rfl : words' = _ := whole
      obtain ⟨start, behind, others⟩ := rest.stretch
      rw [Nat.add_assoc, ← byteLength_append] at others
      refine ⟨[], text ++ after, rfl, .token piece rest, .cons rfl ?_ behind others⟩
      exact Nat.lt_add_of_pos_right piece.byteLength_pos
    | cons first words => exact further (ih (List.cons.inj whole).2)

/-- The same text at another offset has its lexemes at the same distances from there. -/
theorem shifted {old distance : Nat} (run : Run (old + distance) text words) (new : Nat) :
    Run (new + distance) text (words.map (Lexeme.relocate (Span.shifted old new))) := by
  have lexeme : ∀ {distance token} {text : List Char},
      Lexeme.relocate (Span.shifted old new) ⟨token, String.ofList text,
          .between (old + distance) (old + distance + byteLength text)⟩ =
        ⟨token, String.ofList text,
          .between (new + distance) (new + distance + byteLength text)⟩ := by
    intro distance token text
    simp only [Lexeme.relocate, Span.shifted, Lexeme.mk.injEq, Span.between.injEq, true_and]
    omega
  generalize whole : old + distance = place at run
  induction run generalizing distance with
  | last piece =>
    subst whole
    rw [List.map_singleton, lexeme]
    exact .last piece
  | gap piece _ ih =>
    subst whole
    have rest := ih (Nat.add_assoc _ _ _).symm
    rw [← Nat.add_assoc] at rest
    exact .gap piece rest
  | token piece _ ih =>
    subst whole
    have rest := ih (Nat.add_assoc _ _ _).symm
    rw [← Nat.add_assoc] at rest
    rw [List.map_cons, lexeme]
    exact .token piece rest

theorem unique (run : Run offset text words) (run' : Run offset text words') : words = words' :=
  (Scan.mk.inj ((scanned_iff.mp run.scanned).symm.trans (scanned_iff.mp run'.scanned))).1

/-- White space may follow the last lexeme. -/
theorem spaced {after : List Char} {others : List Lexeme} (run : Run offset text words)
    (space : Starts isSpace after) (rest : Scanned (offset + byteLength text) after others) :
    Scanned offset (text ++ after) (words ++ others) := by
  induction run with
  | last piece => exact .token (piece.spaced space) rest
  | gap piece run ih =>
    rw [byteLength_append, ← Nat.add_assoc] at rest
    rw [List.append_assoc]
    exact .gap (piece.extend run.ne_nil.1 space) (ih rest)
  | token piece run ih =>
    rw [byteLength_append, ← Nat.add_assoc] at rest
    rw [List.append_assoc]
    exact .token (piece.extend run.ne_nil.1 space) (ih rest)

end Run

/-- A blank in front of a text does not change its lexemes. -/
theorem Scanned.behind_blank {offset : Nat} {text : List Char} {lexemes : List Lexeme}
    (scanned : Scanned (offset + 1) text lexemes) : Scanned offset (' ' :: text) lexemes := by
  by_cases apart : Starts (fun c => !isSpace c) text
  · have blank : Piece [' '] text .gap := .spaces (List.all_eq_true.mp rfl) apart
    exact .gap blank scanned
  · have begins : ∀ c rest, text = c :: rest → isSpace c := by
      rintro c rest rfl
      cases known : isSpace c with
      | true => rfl
      | false => exact absurd (.cons (by simp [known]) rest) apart
    cases scanned with
    | nil => exact absurd (.nil _) apart
    | @gap _ text after _ piece rest =>
      cases piece with
      | @spaces c run _ all stops =>
        have blanks : Piece (' ' :: c :: run) after .gap :=
          .spaces (List.forall_mem_cons.mpr ⟨by decide, all⟩) stops
        refine Scanned.gap blanks ?_
        rwa [Nat.add_assoc] at rest
      | line => exact absurd (begins _ _ rfl) (by decide)
      | block => exact absurd (begins _ _ rfl) (by decide)
    | token piece rest =>
      obtain ⟨c, tail, rfl, _⟩ := piece.front_eq
      exact absurd (begins c _ rfl) piece.not_isSpace

/-- A word and a blank in front of a text add one lexeme. -/
theorem Scanned.behind_word {offset : Nat} {text : List Char} {lexemes : List Lexeme} (c : Char)
    (parts : List Char) (start : isNameStart c) (all : ∀ d ∈ parts, isNamePart d)
    (scanned : Scanned (offset + byteLength (c :: parts) + 1) text lexemes) :
    ∃ lexeme : Lexeme, lexeme.token = word (c :: parts) ∧
      Scanned offset (c :: parts ++ ' ' :: text) (lexeme :: lexemes) :=
  ⟨_, rfl, (Run.last (.word start all (.nil _))).spaced (.cons rfl _) scanned.behind_blank⟩

/-- Lexemes that stand in a source one behind the other are those of a slice of it, which their
places start and end with. -/
theorem Scanned.slice {text : List Char} {lexemes words : List Lexeme}
    (scanned : Scanned 0 text lexemes) (inside : words <:+: lexemes) (nonempty : words ≠ []) :
    ∃ before body after, text = before ++ (body ++ after) ∧ Run (byteLength before) body words ∧
      Grammar.Stretch words (byteLength before) (byteLength before + byteLength body) := by
  obtain ⟨first, others, rfl⟩ := inside
  obtain ⟨covered, after, rfl, run⟩ := scanned.take (by simp [nonempty])
  obtain ⟨before, body, rfl, run, stretch⟩ := run.drop nonempty
  rw [Nat.zero_add] at run stretch
  rw [Nat.zero_add, byteLength_append] at stretch
  exact ⟨before, body, after, List.append_assoc .., run, stretch⟩

end Lexing

end QueryGuard
