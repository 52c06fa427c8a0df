import QueryGuard.Proofs.Grammar.Following
/-!
What a step of the parser reads without fail.

A step is described in front of the lexemes that follow, since some constructs end only where the
next lexeme does not belong to them.
-/

set_option autoImplicit false

namespace QueryGuard.Grammar

open Parse

variable {α β : Type}

/-- In front of the given rest the step reads just the lexemes, and returns the value. -/
def Takes (previous : Span) (step : Parse α) (words rest : List Lexeme) (value : α) : Prop :=
  ∀ finish, step ⟨previous, words ++ rest, finish⟩ =
    .ok (value, ⟨lastPlace previous words, rest, finish⟩)

namespace Takes

variable {previous : Span} {step : Parse α} {words words' rest : List Lexeme} {value : α}
  {lexeme : Lexeme} {token : Token}

theorem pure : Takes previous (pure value) [] rest value := fun _ => rfl

theorem bind {next : α → Parse β} {result : β}
    (first : Takes previous step words (words' ++ rest) value)
    (second : Takes (lastPlace previous words) (next value) words' rest result) :
    Takes previous (step >>= next) (words ++ words') rest result := by
  intro finish
  change (step _ >>= fun (value, cursor) => next value cursor) = _
  rw [List.append_assoc, first finish, lastPlace_append]
  exact second finish

/-- A step that reads all of the lexemes. -/
theorem all {next : α → Parse β} {result : β} (first : Takes previous step words rest value)
    (second : Takes (lastPlace previous words) (next value) [] rest result) :
    Takes previous (step >>= next) words rest result := by
  have both : Takes previous (step >>= next) (words ++ []) rest result := bind first second
  rwa [List.append_nil] at both

theorem map {f : α → β} (takes : Takes previous step words rest value) :
    Takes previous (f <$> step) words rest (f value) :=
  show Takes previous (step >>= fun value => Pure.pure (f value)) words rest (f value) from
    all takes pure

/-- A step in front of all lexemes. -/
theorem before {next : α → Parse β} {result : β}
    (first : Takes previous step [] (words ++ rest) value)
    (second : Takes previous (next value) words rest result) :
    Takes previous (step >>= next) words rest result := bind first second

/-- The bound that a step takes from the lexemes left is no less than the ones to be read. -/
theorem measured {f : Nat → Parse α}
    (takes : ∀ size, words.length ≤ size → Takes previous (f size) words rest value) :
    Takes previous (do f (← get).rest.length) words rest value :=
  fun finish => takes (words ++ rest).length (by simp) finish

/-- The same for a step that is followed by another one. -/
theorem measured_bind {f : Nat → Parse α} {next : α → Parse β} {result : β}
    (first : ∀ size, words.length ≤ size → Takes previous (f size) words (words' ++ rest) value)
    (second : Takes (lastPlace previous words) (next value) words' rest result) :
    Takes previous (do next (← f (← get).rest.length)) (words ++ words') rest result :=
  measured (f := fun size => f size >>= next) fun size enough =>
    bind (first size (by rw [List.length_append] at enough; omega)) second

theorem peek {next : Option Token → Parse α}
    (takes : Takes previous (next ((words ++ rest).head?.map (·.token))) words rest value) :
    Takes previous (peek? >>= next) words rest value := takes

theorem here {next : Span → Parse α} (first : words.head? = some lexeme)
    (takes : Takes previous (next lexeme.span) words rest value) :
    Takes previous (Parse.here >>= next) words rest value := by
  obtain ⟨more, rfl⟩ := List.head?_eq_some_iff.mp first
  exact takes

theorem last {next : Span → Parse α} (takes : Takes previous (next previous) [] rest value) :
    Takes previous (Parse.last >>= next) [] rest value := takes

theorem skip {next : Unit → Parse α} (takes : Takes lexeme.span (next ()) words rest value) :
    Takes previous (Parse.skip >>= next) (lexeme :: words) rest value := takes

/-- A token that is there is read. -/
theorem accepted {next : Bool → Parse α} (same : lexeme.token = token)
    (takes : Takes lexeme.span (next true) words rest value) :
    Takes previous (Parse.accept token >>= next) (lexeme :: words) rest value := by
  have ahead : (lexeme :: words ++ rest).head?.map (·.token) = some token := congrArg some same
  rw [Parse.accept, bind_assoc]
  apply peek
  rw [if_pos ahead, bind_assoc]
  exact skip takes

/-- A token that is not there is left out. -/
theorem passed {next : Bool → Parse α}
    (other : Ahead (fun found => found ≠ token) (words ++ rest))
    (takes : Takes previous (next false) words rest value) :
    Takes previous (Parse.accept token >>= next) words rest value := by
  rw [Parse.accept, bind_assoc]
  apply peek
  rw [if_neg other.head_ne]
  exact takes

/-- A token that may be left out. -/
theorem optionally {there : Bool} {next : Bool → Parse α}
    (optionally : Optionally token words there)
    (other : Ahead (fun found => found ≠ token) (words' ++ rest))
    (takes : Takes (lastPlace previous words) (next there) words' rest value) :
    Takes previous (Parse.accept token >>= next) (words ++ words') rest value := by
  cases optionally with
  | absent => exact passed other takes
  | present same => exact accepted same takes

/-- A token that is looked at and there. -/
theorem peeked {yes no : Parse α} (same : lexeme.token = token)
    (takes : Takes previous yes (lexeme :: words) rest value) :
    Takes previous (do if (← peek?) = some token then yes else no) (lexeme :: words) rest
      value := by
  have ahead : (lexeme :: words ++ rest).head?.map (·.token) = some token := congrArg some same
  exact peek (by rwa [if_pos ahead])

/-- A token that is looked at and not there. -/
theorem unpeeked {yes no : Parse α} (other : Ahead (fun found => found ≠ token) (words ++ rest))
    (takes : Takes previous no words rest value) :
    Takes previous (do if (← peek?) = some token then yes else no) words rest value :=
  peek (by rwa [if_neg other.head_ne])

/-- Behind a token that has to come next. -/
theorem expecting {expected : Expectation} {next : Span → Parse α} (same : lexeme.token = token)
    (takes : Takes lexeme.span (next lexeme.span) words rest value) :
    Takes previous (Parse.expect token expected >>= next) (lexeme :: words) rest value := by
  rw [Parse.expect, bind_assoc]
  apply here rfl
  rw [bind_assoc]
  exact accepted same takes

theorem name {expected : Expectation} {name : Name} (isIdentifier : IsIdentifier words name) :
    Takes previous (Parse.name expected) words rest name := by
  intro finish
  cases isIdentifier with
  | plain same => simp [Parse.name, nameOf?, same, Cursor.next, lastPlace]
  | quoted same => simp [Parse.name, nameOf?, same, Cursor.next, lastPlace]

theorem word {expected : Expectation} {name : Name} (isWord : IsWord words name) :
    Takes previous (Parse.word expected) words rest name := by
  intro finish
  cases isWord with
  | identifier holds =>
    cases holds with
    | plain same => simp [Parse.word, wordOf?, nameOf?, same, Cursor.next, lastPlace]
    | quoted same => simp [Parse.word, wordOf?, nameOf?, same, Cursor.next, lastPlace]
  | reserved same => simp [Parse.word, wordOf?, same, Cursor.next, lastPlace]

section

variable {item : Rule α} {separator : Token} {E : Token → Bool} {values : List α}

/-- Further items are read up to the first lexeme that is no separator. -/
theorem more {n : Nat} {among : List α} (separates : E separator)
    (each : ∀ previous words rest value, item words value → words.length ≤ n → value ∈ among →
      Ahead E rest → Takes previous step words rest value)
    (repeated : Repeated (Behind separator item) words values)
    (small : words.length ≤ n) (known : values ⊆ among) (follows : Ahead E rest)
    (other : Ahead (fun found => found ≠ separator) rest) (bound : Nat)
    (enough : words.length ≤ bound) :
    Takes previous (Parse.more separator step bound) words rest values := by
  induction repeated generalizing previous bound with
  | none =>
    cases bound with
    | zero => exact pure
    | succ bound => exact passed other pure
  | @more first words' value values behind others ih =>
    cases behind with
    | @mk lexeme words _ same holds =>
      simp only [List.length_append, List.length_cons] at small enough
      obtain ⟨bound, rfl⟩ : ∃ smaller, bound = smaller + 1 := ⟨bound - 1, by omega⟩
      rw [List.cons_subset] at known
      exact accepted same (bind
        (each _ _ _ _ holds (by omega) known.1 (others.follows separates follows))
        (all (ih (by omega) known.2 bound (by omega)) pure))

/-- Items with separators between them. -/
theorem separated (chain : Separated separator item words values) (separates : E separator)
    (each : ∀ previous words' rest value, item words' value → words'.length ≤ words.length →
      value ∈ values → Ahead E rest → Takes previous step words' rest value)
    (follows : Ahead E rest) (other : Ahead (fun found => found ≠ separator) rest) :
    Takes previous (Parse.separated separator step) words rest values := by
  cases chain with
  | @mk words words' value values first others =>
    refine bind (each _ _ _ _ first (by simp) List.mem_cons_self
      (others.follows separates follows)) (all ?_ pure)
    exact measured fun size enough => more separates each others (by simp)
      (List.subset_cons_self _ _) follows other size enough

end

/-- A construct that a keyword announces, or not. -/
theorem clause {keyword : Keyword} {item : Rule α} {found : Option α}
    (maybe : Maybe (Behind (.keyword keyword) item) words found)
    (each : ∀ previous words' value, item words' value → words'.length < words.length →
      value ∈ found → Takes previous step words' rest value)
    (other : Ahead (fun found => found ≠ .keyword keyword) rest) :
    Takes previous (clause? keyword step) words rest found := by
  cases maybe with
  | absent => exact passed other pure
  | present behind =>
    cases behind with
    | mk same holds =>
      exact accepted same (all (each _ _ _ holds (by simp) rfl) pure)

/-- All lexemes are read. -/
theorem readAll {expected : Expectation} {stop : Nat}
    (takes : Takes (.point 0) step words [] value) :
    step.readAll expected words stop = .ok value := by
  have finished : ∀ previous, Takes previous (Parse.finish expected) [] [] () :=
    fun _ => peek pure
  have whole : Takes (.point 0) (do
      let value ← step
      Parse.finish expected
      return value) words [] value := all takes (before (finished _) pure)
  have result := whole stop
  rw [List.append_nil] at result
  exact readAll_ok.mpr ⟨_, result⟩

end Takes

end QueryGuard.Grammar
