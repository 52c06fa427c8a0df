import QueryGuard.Proofs.Grammar.Rules
import QueryGuard.Proofs.Reading.Tests
import QueryGuard.Proofs.Trees
/-!
What can be said of all lexemes that the grammar derives something from: the places they have, the
parts they consist of, and the lexeme they start with.
-/

set_option autoImplicit false

namespace QueryGuard.Grammar

/-! ### Places -/

theorem lastPlace_append (previous : Span) (words words' : List Lexeme) :
    lastPlace previous (words ++ words') = lastPlace (lastPlace previous words) words' :=
  List.foldl_append

/-- What came before does not matter behind a lexeme. -/
theorem lastPlace_congr {words : List Lexeme} (nonempty : words ≠ []) (previous other : Span) :
    lastPlace previous words = lastPlace other words := by
  cases words with
  | nil => exact absurd rfl nonempty
  | cons lexeme rest => rfl

/-- The place that a construct starts at does not depend on what came before it. -/
theorem extent_eq {words : List Lexeme} {start : Span} (previous : Span) (nonempty : words ≠ [])
    (first : ∀ lexeme ∈ words.head?, start = lexeme.span) :
    extent words = start.merge (lastPlace previous words) := by
  cases words with
  | nil => exact absurd rfl nonempty
  | cons lexeme rest =>
    rw [first lexeme rfl]
    rfl

/-! ### Parts -/

section

variable {α : Type} {item item' : Rule α} {separator token : Token}
  {words : List Lexeme}

theorem Behind.mono {value : α} (behind : Behind token item words value)
    (weaker : ∀ words value, item words value → item' words value) :
    Behind token item' words value := by
  cases behind with
  | mk same holds => exact .mk same (weaker _ _ holds)

theorem Maybe.mono {value : Option α} (maybe : Maybe item words value)
    (weaker : ∀ words value, item words value → item' words value) :
    Maybe item' words value := by
  cases maybe with
  | absent => exact .absent
  | present holds => exact .present (weaker _ _ holds)

theorem Repeated.mono {values : List α} (repeated : Repeated item words values)
    (weaker : ∀ words value, item words value → item' words value) :
    Repeated item' words values := by
  induction repeated with
  | none => exact .none
  | more first _ ih => exact .more (weaker _ _ first) ih

theorem Repeated.each {values : List α} (repeated : Repeated item words values) :
    ∀ value ∈ values, ∃ words', item words' value := by
  induction repeated with
  | none => exact fun _ found => nomatch found
  | more first _ ih => exact List.forall_mem_cons.mpr ⟨⟨_, first⟩, ih⟩

theorem Separated.mono {values : List α} (separated : Separated separator item words values)
    (weaker : ∀ words value, item words value → item' words value) :
    Separated separator item' words values := by
  cases separated with
  | mk first others =>
    exact .mk (weaker _ _ first) (others.mono fun _ _ behind => behind.mono weaker)

theorem Separated.each {values : List α} (separated : Separated separator item words values) :
    ∀ value ∈ values, ∃ words', item words' value := by
  cases separated with
  | mk first others =>
    refine List.forall_mem_cons.mpr ⟨⟨_, first⟩, fun value found => ?_⟩
    obtain ⟨_, _, holds⟩ := others.each value found
    exact ⟨_, holds⟩

theorem Separated.single {value : α} (separated : Separated separator item words [value]) :
    item words value := by
  cases separated with
  | mk first others =>
    cases others with
    | none => rwa [List.append_nil]

end

section

variable {Condition : Type} {rule rule' : Rule Condition} {words : List Lexeme}

theorem IsJoin.mono {join : Join Condition} (isJoin : IsJoin rule words join)
    (weaker : ∀ words value, rule words value → rule' words value) :
    IsJoin rule' words join := by
  cases isJoin with
  | mk announced joined as goesBy related required whole =>
    exact .mk announced joined as goesBy
      (related.mono fun _ _ behind => behind.mono weaker) required whole

theorem IsSelect.mono {query : Select Condition} (isSelect : IsSelect rule words query)
    (weaker : ∀ words value, rule words value → rule' words value) :
    IsSelect rule' words query := by
  cases isSelect with
  | mk announced skips selected root joined filtered grouped kept ordered limited skipped whole =>
    exact .mk announced skips selected root
      (joined.mono fun _ _ isJoin => isJoin.mono weaker)
      (filtered.mono fun _ _ behind => behind.mono weaker) grouped
      (kept.mono fun _ _ behind => behind.mono weaker) ordered limited skipped whole

/-- What a reserved word announces, if it is there. -/
theorem Maybe.behind {token : Token} {value : Option Condition}
    (maybe : Maybe (Behind token rule) words value) :
    ∀ condition ∈ value, ∃ words', rule words' condition := by
  cases maybe with
  | absent => exact fun _ found => nomatch found
  | present holds =>
    cases holds with
    | mk _ holds =>
      rintro _ ⟨⟩
      exact ⟨_, holds⟩

theorem IsSelect.conditions {query : Select Condition} (isSelect : IsSelect rule words query) :
    ∀ condition ∈ query.conditions, ∃ words', rule words' condition := by
  cases isSelect with
  | mk _ _ _ _ joined filtered _ kept _ _ _ _ =>
    intro condition found
    simp only [Select.conditions, List.mem_append, List.mem_filterMap, Option.mem_toList] at found
    rcases found with (⟨join, member, same⟩ | found) | found
    · obtain ⟨_, isJoin⟩ := joined.each join member
      cases isJoin with
      | mk _ _ _ _ related _ _ => exact related.behind condition same
    · exact filtered.behind condition found
    · exact kept.behind condition found

end

/-! ### First lexemes -/

/-- There is a first lexeme, and it is of the given kind. -/
def Begins (kind : Token → Bool) (words : List Lexeme) : Prop :=
  ∃ lexeme more, words = lexeme :: more ∧ kind lexeme.token

section

variable {kind : Token → Bool} {words words' : List Lexeme}

theorem Begins.cons {lexeme : Lexeme} {token : Token} (same : lexeme.token = token)
    (holds : kind token) : Begins kind (lexeme :: words) :=
  ⟨lexeme, words, rfl, same ▸ holds⟩

theorem Begins.append (begins : Begins kind words) : Begins kind (words ++ words') := by
  obtain ⟨lexeme, more, rfl, holds⟩ := begins
  exact ⟨lexeme, more ++ words', rfl, holds⟩

theorem Begins.ne_nil (begins : Begins kind words) : words ≠ [] := by
  obtain ⟨lexeme, more, rfl, _⟩ := begins
  exact List.cons_ne_nil _ _

theorem Separated.begins {α : Type} {item : Rule α} {separator : Token} {values : List α}
    (chain : Separated separator item words values)
    (each : ∀ words value, item words value → Begins kind words) : Begins kind words := by
  cases chain with
  | mk first _ => exact (each _ _ first).append

theorem IsIdentifier.single {name : Name} (isIdentifier : IsIdentifier words name) :
    ∃ lexeme, words = [lexeme] ∧
      (lexeme.token = .name name.value ∨ lexeme.token = .quotedName name.value) := by
  cases isIdentifier with
  | plain same => exact ⟨_, rfl, .inl same⟩
  | quoted same => exact ⟨_, rfl, .inr same⟩

theorem IsLiteral.begins {literal : Located Literal} (isLiteral : IsLiteral words literal) :
    Begins startsExpr words := by
  cases isLiteral with
  | string same | integer same | decimal same | true same | false same | null same =>
    exact .cons same rfl
  | negativeInteger minus | negativeDecimal minus => exact .cons minus rfl

theorem IsExpr.begins {expr : Expr} (isExpr : IsExpr words expr) : Begins startsExpr words := by
  cases isExpr with
  | path holds =>
    cases holds with
    | mk first _ =>
      obtain ⟨lexeme, rfl, same | same⟩ := first.single
      · exact .cons same rfl
      · exact .cons same rfl
  | literal holds => exact holds.begins
  | parameter same => exact .cons same rfl
  | aggregate called | call called => exact .cons called rfl

theorem IsSelectItem.begins {item : SelectItem} (isItem : IsSelectItem words item) :
    Begins startsExpr words := by
  cases isItem with
  | bare value => exact value.begins
  | labelled value _ _ => exact value.begins.append

theorem IsJoinKind.ne_nil {kind : JoinKind} (isJoinKind : IsJoinKind words kind) : words ≠ [] := by
  cases isJoinKind <;> simp

/-- Whether a join starts with the token. -/
def startsJoin : Token → Bool
  | .keyword .join | .keyword .inner | .keyword .left => true
  | _ => false

theorem startsJoin_iff {token : Token} :
    startsJoin token ↔
      token = .keyword .join ∨ token = .keyword .inner ∨ token = .keyword .left := by
  unfold startsJoin
  split <;> simp_all

theorem IsJoin.begins {Condition : Type} {rule : Rule Condition} {join : Join Condition}
    (isJoin : IsJoin rule words join) : Begins startsJoin words := by
  cases isJoin with
  | mk announced _ _ _ _ _ whole =>
    subst whole
    refine Begins.append ?_
    cases announced with
    | inner inner same =>
      cases inner with
      | absent => exact .cons same rfl
      | present same => exact .cons same rfl
    | left same _ _ => exact .cons same rfl

theorem IsSelect.starts {Condition : Type} {rule : Rule Condition} {query : Select Condition}
    (isSelect : IsSelect rule words query) :
    ∃ lexeme more, words = lexeme :: more ∧ lexeme.token = .keyword .select := by
  cases isSelect with
  | mk announced _ _ _ _ _ _ _ _ _ _ whole => exact ⟨_, _, whole, announced⟩

/-! ### Conditions with NOT -/

theorem opposite_of_ne {predicate : Predicate}
    (other : ∀ query, predicate ≠ .existsIn query false) : opposite predicate = .not predicate := by
  unfold opposite
  split
  · exact absurd rfl (other _)
  · rfl

theorem opposite_ne (predicate : Predicate) (query : Query) :
    opposite predicate ≠ .existsIn query false := by
  unfold opposite
  split <;> simp

theorem nesting_opposite (predicate : Predicate) :
    (opposite predicate).nesting = predicate.nesting := by
  unfold opposite
  split <;> rfl

/-- Of all atoms, only EXISTS starts with that word. -/
theorem IsAtom.starts {predicate : Predicate} (isAtom : IsAtom words predicate) :
    ∃ lexeme more, words = lexeme :: more ∧ lexeme.token ≠ .keyword .not ∧
      (lexeme.token = .keyword .exists ↔ ∃ query, predicate = .existsIn query false) := by
  have ofExpr : ∀ {words words' : List Lexeme} {expr : Expr} {predicate : Predicate},
      IsExpr words expr → (∀ query, predicate ≠ .existsIn query false) →
      ∃ lexeme more, words ++ words' = lexeme :: more ∧ lexeme.token ≠ .keyword .not ∧
        (lexeme.token = .keyword .exists ↔ ∃ query, predicate = .existsIn query false) := by
    intro words words' expr predicate isExpr other
    obtain ⟨lexeme, more, rfl, starts⟩ := isExpr.begins
    refine ⟨lexeme, _, rfl, fun same => ?_, fun same => ?_, fun ⟨query, same⟩ => ?_⟩
    · simp [same, startsExpr] at starts
    · simp [same, startsExpr] at starts
    · exact absurd same (other query)
  cases isAtom with
  | group inside =>
    cases inside with
    | mk opened _ _ => exact ⟨_, _, rfl, by simp [opened], by simp [opened]⟩
  | existsIn announced _ => exact ⟨_, _, rfl, by simp [announced], by simp [announced]⟩
  | inQuery value _ _ _ => exact ofExpr value fun _ => by simp
  | test value _ => exact ofExpr value fun _ => by simp

theorem IsNegation.isAtom {lexeme : Lexeme} {predicate : Predicate}
    (isNegation : IsNegation (lexeme :: words) predicate) (noNot : lexeme.token ≠ .keyword .not) :
    IsAtom (lexeme :: words) predicate := by
  cases isNegation with
  | affirmed holds => exact holds
  | negated not _ => exact absurd not noNot

/-- NOT in front of EXISTS does not start with the word of the latter. -/
theorem IsNegation.starts {predicate : Predicate} (isNegation : IsNegation words predicate) :
    ∃ lexeme more, words = lexeme :: more ∧
      (lexeme.token = .keyword .exists ↔ ∃ query, predicate = .existsIn query false) := by
  cases isNegation with
  | affirmed holds =>
    obtain ⟨lexeme, more, split, _, starts⟩ := holds.starts
    exact ⟨lexeme, more, split, starts⟩
  | negated not _ =>
    exact ⟨_, _, rfl, by simp [not], fun ⟨query, same⟩ => absurd same (opposite_ne _ query)⟩

end

end QueryGuard.Grammar
