import QueryGuard.Proofs.Reading.Words
import QueryGuard.Syntax.Cursor
/-!
What steps of the parser read, by the words of the lexemes and without their places.

A step is described in front of the words that follow, since some constructs end only where the
next word does not belong to them.
-/

set_option autoImplicit false

namespace QueryGuard

/-- The words still to be read. -/
def Cursor.words (cursor : Cursor) : List Word := cursor.rest.map Lexeme.word

/-- The first word, if there is one, is of the given kind. -/
def Follows (kind : Token → Bool) (rest : List Word) : Prop := ∀ word ∈ rest.head?, kind word.token

namespace Follows

variable {kind kind' : Token → Bool} {word : Word} {words rest : List Word}

theorem nil (kind : Token → Bool) : Follows kind [] := by simp [Follows]

theorem cons (holds : kind word.token) : Follows kind (word :: rest) := by
  simpa [Follows] using holds

theorem cons_ne {token : Token} (differs : word.token ≠ token) :
    Follows (fun found => found ≠ token) (word :: rest) :=
  cons (by simpa using differs)

theorem mono (follows : Follows kind rest) (weaker : ∀ token, kind token → kind' token) :
    Follows kind' rest :=
  fun word found => weaker word.token (follows word found)

theorem head_ne {token : Token} (follows : Follows (fun found => found ≠ token) rest) :
    rest.head?.map Word.token ≠ some token := by
  intro same
  obtain ⟨word, found, same⟩ := Option.map_eq_some_iff.mp same
  simpa [same] using follows word found

/-- Words that cannot be empty decide alone what comes first. -/
theorem append (first : Follows kind words) (nonempty : words ≠ []) :
    Follows kind (words ++ rest) := by
  cases words with
  | nil => exact absurd rfl nonempty
  | cons head tail => exact first

end Follows

/-- The word, if it is there. -/
def Word.when (word : Word) (there : Bool) : List Word := if there then [word] else []

/-- Words separated by a given one, each group of them standing for a value. -/
inductive Chain {α : Type} (item : List Word → α → Prop) (separator : Word) :
    List Word → List α → Prop where
  | one {words : List Word} {value : α} (first : item words value) :
      Chain item separator words [value]
  | more {words words' : List Word} {value : α} {values : List α} (first : item words value)
      (others : Chain item separator words' values) :
      Chain item separator (words ++ separator :: words') (value :: values)

namespace Chain

variable {α : Type} {item item' : List Word → α → Prop} {separator : Word}
  {words words' : List Word} {values values' : List α}

theorem append (first : Chain item separator words values)
    (second : Chain item separator words' values') :
    Chain item separator (words ++ separator :: words') (values ++ values') := by
  induction first with
  | one first => exact .more first second
  | more first _ ih =>
    rw [List.append_assoc, List.cons_append]
    exact .more first ih

/-- A chain starts with its first item. -/
theorem head {P : List Word → Prop} (chain : Chain item separator words values)
    (holds : ∀ words value more, item words value → P (words ++ more)) :
    P words := by
  cases chain with
  | one first => simpa only [List.append_nil] using holds _ _ [] first
  | more first _ => exact holds _ _ _ first

/-- The words of the items are no more than all words, and their values are among all values. -/
theorem bounded (chain : Chain item separator words values) {n : Nat} {all : List α}
    (enough : words.length ≤ n) (among : values ⊆ all) :
    Chain (fun words value => words.length ≤ n ∧ value ∈ all ∧ item words value) separator words
      values := by
  induction chain with
  | one first => exact .one ⟨enough, among List.mem_cons_self, first⟩
  | more first _ ih =>
    rw [List.length_append, List.length_cons] at enough
    rw [List.cons_subset] at among
    exact .more ⟨by omega, among.1, first⟩ (ih (by omega) among.2)

theorem ne_nil (chain : Chain item separator words values) : values ≠ [] := by
  cases chain <;> exact List.cons_ne_nil _ _

theorem single {value : α} (chain : Chain item separator words [value]) : item words value := by
  cases chain with
  | one first => exact first
  | more _ others => exact absurd rfl others.ne_nil

end Chain

namespace Parse

variable {α β γ : Type}

/-- In front of the given rest the step reads the words, and its value has the property. -/
def Reads (step : Parse α) (words rest : List Word) (good : α → Prop) : Prop :=
  ∀ cursor : Cursor, cursor.words = words ++ rest →
    ∃ value after, step cursor = .ok (value, after) ∧ after.words = rest ∧ good value

namespace Reads

variable {words words' rest : List Word} {P Q : α → Prop} {word : Word} {token : Token}

theorem pure {value : α} (holds : P value) : Reads (pure value) [] rest P :=
  fun cursor here => ⟨value, cursor, rfl, here, holds⟩

theorem mono {step : Parse α} (reads : Reads step words rest P)
    (weaker : ∀ value, P value → Q value) : Reads step words rest Q := by
  intro cursor here
  obtain ⟨value, after, result, there, holds⟩ := reads cursor here
  exact ⟨value, after, result, there, weaker value holds⟩

theorem bind {step : Parse α} {next : α → Parse β} {Q : β → Prop}
    (first : Reads step words (words' ++ rest) P)
    (second : ∀ value, P value → Reads (next value) words' rest Q) :
    Reads (step >>= next) (words ++ words') rest Q := by
  intro cursor here
  rw [List.append_assoc] at here
  obtain ⟨value, between, result, there, holds⟩ := first cursor here
  obtain ⟨value', after, result', there', holds'⟩ := second value holds between there
  refine ⟨value', after, ?_, there', holds'⟩
  change (step cursor >>= fun (value, cursor) => next value cursor) = _
  rw [result]
  exact result'

/-- A step in front of all words. -/
theorem before {step : Parse α} {next : α → Parse β} {Q : β → Prop}
    (first : Reads step [] (words ++ rest) P)
    (second : ∀ value, P value → Reads (next value) words rest Q) :
    Reads (step >>= next) words rest Q :=
  bind (show Reads step [] (words ++ rest) P from first) second

/-- A step that reads the first word. -/
theorem head {step : Parse α} {next : α → Parse β} {Q : β → Prop}
    (first : Reads step [word] (words ++ rest) P)
    (second : ∀ value, P value → Reads (next value) words rest Q) :
    Reads (step >>= next) (word :: words) rest Q :=
  bind (show Reads step [word] (words ++ rest) P from first) second

/-- A step that reads all words. -/
theorem all {step : Parse α} {next : α → Parse β} {Q : β → Prop}
    (first : Reads step words rest P)
    (second : ∀ value, P value → Reads (next value) [] rest Q) :
    Reads (step >>= next) words rest Q := by
  have both := bind (show Reads step words ([] ++ rest) P from first) second
  rwa [List.append_nil] at both

theorem map {step : Parse α} {f : α → β} {Q : β → Prop}
    (reads : Reads step words rest fun value => Q (f value)) :
    Reads (f <$> step) words rest Q := by
  intro cursor here
  obtain ⟨value, after, result, there, holds⟩ := reads cursor here
  refine ⟨f value, after, ?_, there, holds⟩
  change (step cursor >>= fun (value, cursor) => Except.ok (f value, cursor)) = _
  rw [result]
  rfl

/-- The bound that a step takes from the lexemes left is no less than the words to be read. -/
theorem measured {f : Nat → Parse α}
    (reads : ∀ size, words.length ≤ size → Reads (f size) words rest P) :
    Reads (do f (← get).rest.length) words rest P := by
  intro cursor here
  have enough : words.length ≤ cursor.rest.length := by
    have sizes := congrArg List.length here
    simp only [Cursor.words, List.length_map, List.length_append] at sizes
    omega
  exact reads cursor.rest.length enough cursor here

/-- The same for a step that is followed by another one. -/
theorem measured_bind {f : Nat → Parse α} {next : α → Parse β} {Q : β → Prop}
    (first : ∀ size, words.length ≤ size → Reads (f size) words (words' ++ rest) P)
    (second : ∀ value, P value → Reads (next value) words' rest Q) :
    Reads (do next (← f (← get).rest.length)) (words ++ words') rest Q := by
  refine measured (f := fun size => f size >>= next) fun size enough => ?_
  rw [List.length_append] at enough
  exact bind (first size (by omega)) second

theorem peek {next : Option Token → Parse α}
    (reads : Reads (next ((words ++ rest).head?.map Word.token)) words rest P) :
    Reads (peek? >>= next) words rest P := by
  intro cursor here
  have ahead : cursor.token? = (words ++ rest).head?.map Word.token := by
    rw [← here, Cursor.words, Cursor.token?, List.head?_map, Option.map_map]
    rfl
  rw [← ahead] at reads
  exact reads cursor here

theorem here {next : Span → Parse α} (reads : ∀ span, Reads (next span) words rest P) :
    Reads (Parse.here >>= next) words rest P :=
  fun cursor there => reads cursor.span cursor there

theorem last {next : Span → Parse α} (reads : ∀ span, Reads (next span) words rest P) :
    Reads (Parse.last >>= next) words rest P :=
  fun cursor there => reads cursor.previous cursor there

/-- The lexeme of the first word, and the cursor behind it. -/
theorem first_lexeme {cursor : Cursor} (ahead : cursor.words = word :: rest) :
    ∃ lexeme lexemes, cursor.rest = lexeme :: lexemes ∧ lexeme.word = word ∧
      cursor.next.words = rest := by
  cases left : cursor.rest with
  | nil => simp [Cursor.words, left] at ahead
  | cons lexeme lexemes =>
    rw [Cursor.words, left, List.map_cons, List.cons.injEq] at ahead
    exact ⟨lexeme, lexemes, rfl, ahead.1, by rw [Cursor.next, left]; exact ahead.2⟩

theorem skip : Reads skip [word] rest fun _ => True := by
  intro cursor ahead
  obtain ⟨_, _, _, _, behind⟩ := first_lexeme ahead
  exact ⟨(), cursor.next, rfl, behind, trivial⟩

theorem accept (same : word.token = token) : Reads (accept token) [word] rest (· = true) := by
  apply peek
  simp only [List.cons_append, List.head?_cons, Option.map_some, same, ↓reduceIte]
  exact all skip fun _ _ => pure rfl

theorem not_accept (other : Follows (fun found => found ≠ token) rest) :
    Reads (Parse.accept token) [] rest (· = false) := by
  apply peek
  rw [List.nil_append, if_neg other.head_ne]
  exact pure rfl

/-- A token that may be left out is noted if it is there. -/
theorem accept_optional {there : Bool} (same : word.token = token)
    (other : Follows (fun found => found ≠ token) rest) :
    Reads (Parse.accept token) (word.when there) rest (· = there) := by
  cases there with
  | true => exact accept same
  | false => exact not_accept other

/-- A token that is there is read, and the step goes on with the first branch. -/
theorem accepted {yes no : Parse α} (same : word.token = token)
    (reads : Reads yes words rest P) :
    Reads (do if ← Parse.accept token then yes else no) (word :: words) rest P :=
  head (accept same) fun _ found => by
    rw [if_pos found]
    exact reads

/-- A token that is not there is left out, and the step goes on with the second branch. -/
theorem passed {yes no : Parse α} (other : Follows (fun found => found ≠ token) (words ++ rest))
    (reads : Reads no words rest P) :
    Reads (do if ← Parse.accept token then yes else no) words rest P :=
  before (not_accept other) fun _ missing => by
    rw [if_neg (by simp [missing])]
    exact reads

/-- A token that is looked at and there. -/
theorem peeked {yes no : Parse α} (same : word.token = token)
    (reads : Reads yes (word :: words) rest P) :
    Reads (do if (← peek?) = some token then yes else no) (word :: words) rest P :=
  peek (by rwa [if_pos (by rw [← same]; rfl)])

/-- A token that is looked at and not there. -/
theorem unpeeked {yes no : Parse α} (other : Follows (fun found => found ≠ token) (words ++ rest))
    (reads : Reads no words rest P) :
    Reads (do if (← peek?) = some token then yes else no) words rest P :=
  peek (by rwa [if_neg other.head_ne])

theorem expect {expected : Expectation} (same : word.token = token) :
    Reads (expect token expected) [word] rest fun _ => True :=
  here fun _ => accepted same (pure trivial)

/-- Behind a token that has to come next. -/
theorem expecting {expected : Expectation} {next : Span → Parse α} (same : word.token = token)
    (reads : ∀ span, Reads (next span) words rest P) :
    Reads (Parse.expect token expected >>= next) (word :: words) rest P :=
  head (expect same) fun span _ => reads span

theorem no_more {item : Parse α} (other : Follows (fun found => found ≠ token) rest) (bound : Nat) :
    Reads (more token item bound) [] rest (· = []) := by
  cases bound with
  | zero => exact pure rfl
  | succ bound => exact passed other (pure rfl)

section

variable {step : Parse α} {item : List Word → β → Prop} {separator : Word} {E : Token → Bool}
  {values : List β} {erase : α → γ} {image : β → γ}

/-- Further items are read up to the first word that is no separator. -/
theorem more (same : separator.token = token) (separates : E token)
    (each : ∀ words value rest, item words value → Follows E rest →
      Reads step words rest fun result => erase result = image value)
    (chain : Chain item separator words values) (follows : Follows E rest)
    (other : Follows (fun found => found ≠ token) rest) (bound : Nat)
    (enough : words.length < bound) :
    Reads (Parse.more token step bound) (separator :: words) rest
      fun results => results.map erase = values.map image := by
  induction chain generalizing bound with
  | @one words value first =>
    obtain ⟨bound, rfl⟩ : ∃ smaller, bound = smaller + 1 := ⟨bound - 1, by omega⟩
    rw [Parse.more]
    refine accepted same (all (each _ _ _ first follows) fun result found => ?_)
    apply all (no_more other bound)
    rintro _ rfl
    exact pure (by simp only [List.map_cons, List.map_nil, found])
  | @more words words' value values first _ ih =>
    obtain ⟨bound, rfl⟩ : ∃ smaller, bound = smaller + 1 := ⟨bound - 1, by omega⟩
    have shorter : words'.length < bound := by
      simp only [List.length_append, List.length_cons] at enough
      omega
    have between : Follows E (separator :: words' ++ rest) := .cons (same ▸ separates)
    rw [Parse.more]
    refine accepted same (bind (each _ _ _ first between) fun result found => ?_)
    apply all (ih bound shorter)
    intro results others
    exact pure (by simp only [List.map_cons, found, others])

/-- Items with separators between them. -/
theorem separated (same : separator.token = token) (separates : E token)
    (each : ∀ words value rest, item words value → Follows E rest →
      Reads step words rest fun result => erase result = image value)
    (chain : Chain item separator words values) (follows : Follows E rest)
    (other : Follows (fun found => found ≠ token) rest) :
    Reads (Parse.separated token step) words rest
      fun results => results.map erase = values.map image := by
  cases chain with
  | @one words value first =>
    apply all (each _ _ _ first follows)
    intro result found
    refine all (measured fun size _ => no_more other size) ?_
    rintro _ rfl
    exact pure (by simp only [List.map_cons, List.map_nil, found])
  | @more words words' value values first others =>
    have between : Follows E (separator :: words' ++ rest) := .cons (same ▸ separates)
    apply bind (each _ _ _ first between)
    intro result found
    refine all (measured fun size enough => more same separates each others follows other size
      ?_) fun results others => ?_
    · rw [List.length_cons] at enough
      omega
    · exact pure (by simp only [List.map_cons, found, others])

end

/-- A step that reads all words of a source. -/
theorem run {step : Parse α} {source : String} (splits : Lexing.Splits source.toList words)
    (reads : Reads step words [] P) (expected : Expectation) :
    ∃ value, step.run expected source = .ok value ∧ P value := by
  obtain ⟨noFailure, lexemes⟩ := splits.scan 0
  have whole : Reads (do let value ← step; finish expected; return value) words [] P :=
    all reads fun value holds => before (P := fun _ => True) (peek (pure trivial)) fun _ _ =>
      pure holds
  obtain ⟨value, after, result, _, holds⟩ :=
    whole ⟨.point 0, (scan source).lexemes, source.utf8ByteSize⟩
      (by rw [List.append_nil]; exact lexemes)
  refine ⟨value, ?_, holds⟩
  have tokens : tokenize source = .ok (scan source).lexemes := by
    have unfolded : (scan source).failure = none := noFailure
    rw [tokenize, unfolded]
  simp only [Parse.run, readAll, tokens, result]
  rfl

end Reads

end Parse

end QueryGuard
