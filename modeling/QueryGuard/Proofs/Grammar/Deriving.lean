import QueryGuard.Proofs.Grammar.Shape
import QueryGuard.Syntax.Cursor
/-!
What a step of the parser has read if it succeeds.

A step is described at the lexemes that are left, so that a rule may tell what it looked at. It
always reads a first part of them: the cursor behind it holds the others and the place of the last
one read.
-/

set_option autoImplicit false

namespace QueryGuard.Grammar

open Parse

variable {α β : Type}

theorem isIdentifier_of_nameOf? {lexeme : Lexeme} {name : Name}
    (named : nameOf? lexeme = some name) : IsIdentifier [lexeme] name := by
  unfold nameOf? at named
  split at named
  · obtain rfl := Option.some.inj named
    exact .plain ‹_›
  · obtain rfl := Option.some.inj named
    exact .quoted ‹_›
  · cases named

theorem isWord_of_wordOf? {lexeme : Lexeme} {name : Name} (named : wordOf? lexeme = some name) :
    IsWord [lexeme] name := by
  unfold wordOf? at named
  split at named
  · obtain rfl := Option.some.inj named
    exact .reserved ‹_›
  · exact .identifier (isIdentifier_of_nameOf? named)

/-- Whatever the step reads of the lexemes that are left, the rule derives its value from it. -/
def Derives (previous : Span) (rest : List Lexeme) (step : Parse α) (rule : Rule α) : Prop :=
  ∀ finish value after, step ⟨previous, rest, finish⟩ = .ok (value, after) →
    ∃ words left, rest = words ++ left ∧ after = ⟨lastPlace previous words, left, finish⟩ ∧
      rule words value

namespace Derives

variable {previous : Span} {rest : List Lexeme} {step : Parse α} {rule item : Rule α}

theorem pure {value : α} (holds : rule [] value) : Derives previous rest (pure value) rule := by
  intro finish value' after result
  obtain ⟨rfl, rfl⟩ := Prod.mk.inj (Except.ok.inj result)
  exact ⟨[], rest, rfl, rfl, holds⟩

theorem fail (expected : Expectation) (hint : Option Hint) :
    Derives previous rest (Parse.fail expected hint) rule := by
  intro finish value after result
  cases result

theorem throw (error : SyntaxError) :
    Derives previous rest (throw error : Parse α) rule := by
  intro finish value after result
  cases result

theorem mono (derives : Derives previous rest step item)
    (weaker : ∀ words value, item words value → rule words value) :
    Derives previous rest step rule := by
  intro finish value after result
  obtain ⟨words, left, split, there, holds⟩ := derives finish value after result
  exact ⟨words, left, split, there, weaker words value holds⟩

theorem bind {next : α → Parse β} {rule : Rule β} (first : Derives previous rest step item)
    (second : ∀ words left value, rest = words ++ left → item words value →
      Derives (lastPlace previous words) left (next value) fun words' => rule (words ++ words')) :
    Derives previous rest (step >>= next) rule := by
  intro finish value after result
  change (step _ >>= fun (value, cursor) => next value cursor) = _ at result
  cases between : step ⟨previous, rest, finish⟩ with
  | error error =>
    rw [between] at result
    cases result
  | ok found =>
    rw [between] at result
    obtain ⟨words, left, rfl, there, holds⟩ := first finish found.1 found.2 between
    change next found.1 found.2 = _ at result
    rw [there] at result
    obtain ⟨words', left', rfl, there', holds'⟩ :=
      second words left found.1 rfl holds finish value after result
    exact ⟨words ++ words', left', (List.append_assoc ..).symm,
      there'.trans (by rw [lastPlace_append]), holds'⟩

/-- A step whose value is all that is still to be made use of. -/
theorem ending {f : α → β} {rule : Rule β} (derives : Derives previous rest step item)
    (holds : ∀ words value, item words value → rule words (f value)) :
    Derives previous rest (step >>= fun value => Pure.pure (f value)) rule :=
  bind derives fun words left value _ derived => pure (by
    rw [List.append_nil]
    exact holds words value derived)

theorem map {f : α → β} {rule : Rule β}
    (derives : Derives previous rest step fun words value => rule words (f value)) :
    Derives previous rest (f <$> step) rule := ending derives fun _ _ holds => holds

theorem measured {f : Nat → Parse α} (derives : Derives previous rest (f rest.length) rule) :
    Derives previous rest (do f (← get).rest.length) rule := derives

/-- The same for a step that is followed by another one. -/
theorem measured_bind {f : Nat → Parse α} {next : α → Parse β} {rule : Rule β}
    (derives : Derives previous rest (f rest.length >>= next) rule) :
    Derives previous rest (do next (← f (← get).rest.length)) rule := derives

theorem peek {next : Option Token → Parse α}
    (derives : Derives previous rest (next (rest.head?.map (·.token))) rule) :
    Derives previous rest (peek? >>= next) rule := derives

theorem here {next : Span → Parse α}
    (derives : ∀ place, (∀ lexeme ∈ rest.head?, place = lexeme.span) →
      Derives previous rest (next place) rule) :
    Derives previous rest (Parse.here >>= next) rule := by
  intro finish value after result
  refine derives (Cursor.span ⟨previous, rest, finish⟩) ?_ finish value after result
  intro lexeme found
  cases rest with
  | nil => cases found
  | cons first left =>
    cases found
    rfl

theorem last {next : Span → Parse α} (derives : Derives previous rest (next previous) rule) :
    Derives previous rest (Parse.last >>= next) rule := derives

/-- What is derived behind a lexeme is derived together with it. -/
theorem behind {lexeme : Lexeme} {finish : Nat} {value : α} {after : Cursor}
    (derives : Derives lexeme.span rest step fun words => rule (lexeme :: words))
    (result : step ⟨lexeme.span, rest, finish⟩ = .ok (value, after)) :
    ∃ words left, lexeme :: rest = words ++ left ∧
      after = ⟨lastPlace previous words, left, finish⟩ ∧ rule words value := by
  obtain ⟨words, left, rfl, rfl, holds⟩ := derives finish value after result
  exact ⟨lexeme :: words, left, rfl, rfl, holds⟩

/-- Past a lexeme that is there. -/
theorem skip {lexeme : Lexeme} {next : Unit → Parse α}
    (derives : Derives lexeme.span rest (next ()) fun words => rule (lexeme :: words)) :
    Derives previous (lexeme :: rest) (Parse.skip >>= next) rule :=
  fun _ _ _ result => behind derives result

/-- A token that is read if it comes next. -/
theorem accept {token : Token} {next : Bool → Parse α}
    (accepted : ∀ lexeme left, rest = lexeme :: left → lexeme.token = token →
      Derives lexeme.span left (next true) fun words => rule (lexeme :: words))
    (passed : rest.head?.map (·.token) ≠ some token → Derives previous rest (next false) rule) :
    Derives previous rest (Parse.accept token >>= next) rule := by
  rw [Parse.accept, bind_assoc]
  apply peek
  split
  · rename_i ahead
    obtain ⟨lexeme, found, same⟩ := Option.map_eq_some_iff.mp ahead
    obtain ⟨left, rfl⟩ := List.head?_eq_some_iff.mp found
    rw [bind_assoc]
    exact skip (accepted lexeme left rfl same)
  · rename_i other
    exact passed other

theorem ite {condition : Prop} [Decidable condition] {yes no : Parse α}
    (first : condition → Derives previous rest yes rule)
    (second : ¬ condition → Derives previous rest no rule) :
    Derives previous rest (if condition then yes else no) rule := by
  split
  · exact first ‹_›
  · exact second ‹_›

/-- A token that may be left out. -/
theorem optionally (token : Token) :
    Derives previous rest (Parse.accept token) (Optionally token) := by
  rw [← bind_pure (Parse.accept token)]
  exact accept (fun _ _ _ same => pure (.present same)) fun _ => pure .absent

/-- Behind a token that has to come next. -/
theorem expecting {token : Token} {expected : Expectation} {next : Span → Parse α}
    (derives : ∀ lexeme left, rest = lexeme :: left → lexeme.token = token →
      Derives lexeme.span left (next lexeme.span) fun words => rule (lexeme :: words)) :
    Derives previous rest (Parse.expect token expected >>= next) rule := by
  rw [Parse.expect, bind_assoc]
  apply here
  intro place first
  rw [bind_assoc]
  refine accept (fun lexeme left split same => ?_) fun _ => ?_
  · rw [if_pos rfl, pure_bind, first lexeme (split ▸ rfl)]
    exact derives lexeme left split same
  · have missing : Derives previous rest (Parse.fail expected) fun _ (_ : Span) => False := fail _ _
    exact bind missing fun _ _ _ _ absurd => absurd.elim

/-- A step that reads one lexeme which stands for a value. -/
theorem lexeme {f : Lexeme → Option α}
    (reads : ∀ lexeme left finish value after,
      step ⟨previous, lexeme :: left, finish⟩ = .ok (value, after) →
      f lexeme = some value ∧ after = ⟨lexeme.span, left, finish⟩)
    (stops : ∀ finish value after, step ⟨previous, [], finish⟩ ≠ .ok (value, after))
    (holds : ∀ lexeme value, f lexeme = some value → rule [lexeme] value) :
    Derives previous rest step rule := by
  intro finish value after result
  cases rest with
  | nil => exact absurd result (stops finish value after)
  | cons lexeme left =>
    obtain ⟨known, rfl⟩ := reads lexeme left finish value after result
    exact ⟨[lexeme], left, rfl, rfl, holds lexeme value known⟩

theorem name {expected : Expectation} :
    Derives previous rest (Parse.name expected) IsIdentifier := by
  refine lexeme (f := nameOf?) (fun lexeme left finish value after result => ?_)
    (fun _ _ _ result => nomatch result) fun _ _ => isIdentifier_of_nameOf?
  unfold Parse.name at result
  dsimp only at result
  split at result
  · rename_i found
    obtain ⟨rfl, rfl⟩ := Prod.mk.inj (Except.ok.inj result)
    exact ⟨found, rfl⟩
  · cases result

theorem word {expected : Expectation} :
    Derives previous rest (Parse.word expected) IsWord := by
  refine lexeme (f := wordOf?) (fun lexeme left finish value after result => ?_)
    (fun _ _ _ result => nomatch result) fun _ _ => isWord_of_wordOf?
  unfold Parse.word at result
  dsimp only [List.head?_cons, Option.bind_some] at result
  split at result
  · rename_i found
    obtain ⟨rfl, rfl⟩ := Prod.mk.inj (Except.ok.inj result)
    exact ⟨found, rfl⟩
  · cases result

theorem more {separator : Token} (each : ∀ previous rest, Derives previous rest step item)
    (bound : Nat) :
    Derives previous rest (Parse.more separator step bound) (Repeated (Behind separator item)) := by
  induction bound generalizing previous rest with
  | zero => exact pure .none
  | succ bound ih =>
    refine accept (fun lexeme left _ same => ?_) fun _ => pure .none
    refine bind (each _ _) fun words left value _ first => ending ih fun words' values others => ?_
    exact .more (.mk same first) others

theorem following {separator : Token} (each : ∀ previous rest, Derives previous rest step item) :
    Derives previous rest (Parse.following separator step) (Repeated (Behind separator item)) :=
  measured (more each _)

/-- There is an item if the separator comes next. -/
theorem following_ne_nil {separator : Token}
    (each : ∀ previous rest, Derives previous rest step item)
    (ahead : rest.head?.map (·.token) = some separator) :
    Derives previous rest (Parse.following separator step)
      fun words values => Repeated (Behind separator item) words values ∧ values ≠ [] := by
  cases rest with
  | nil => cases ahead
  | cons lexeme left =>
    refine measured (accept (fun lexeme left _ same => ?_) fun other => absurd ahead other)
    refine bind (each _ _) fun _ _ _ _ first => ending (more each _) fun _ _ others => ?_
    exact ⟨.more (.mk same first) others, List.cons_ne_nil _ _⟩

theorem separated {separator : Token} (each : ∀ previous rest, Derives previous rest step item) :
    Derives previous rest (Parse.separated separator step) (Separated separator item) :=
  bind (each _ _) fun _ _ _ _ first => ending (following each) fun _ _ others => .mk first others

theorem clause {keyword : Keyword} (each : ∀ previous rest, Derives previous rest step item) :
    Derives previous rest (clause? keyword step) (Maybe (Behind (.keyword keyword) item)) :=
  accept (fun _ _ _ same => ending (each _ _) fun _ _ holds => .present (.mk same holds))
    fun _ => pure .absent

/-- Nothing is left where nothing more may come. -/
theorem finish {expected : Expectation} :
    Derives previous rest (Parse.finish expected) fun words _ => words = [] ∧ rest = [] := by
  apply peek
  cases rest with
  | nil => exact pure ⟨rfl, rfl⟩
  | cons lexeme left => exact fail _ _

/-- What is read from all lexemes is derived from all of them. -/
theorem readAll {expected : Expectation} {lexemes : List Lexeme} {stop : Nat} {value : α}
    (derives : Derives (.point 0) lexemes step rule)
    (result : step.readAll expected lexemes stop = .ok value) : rule lexemes value := by
  have whole : Derives (.point 0) lexemes (do
      let value ← step
      Parse.finish expected
      return value) fun words value => words = lexemes ∧ rule words value := by
    refine bind derives fun words left value split holds => ending finish ?_
    rintro _ _ ⟨rfl, rfl⟩
    rw [List.append_nil] at split ⊢
    exact ⟨split.symm, holds⟩
  obtain ⟨after, result⟩ := readAll_ok.mp result
  obtain ⟨_, _, _, _, rfl, holds⟩ := whole stop value after result
  exact holds

end Derives

end QueryGuard.Grammar
