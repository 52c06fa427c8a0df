import QueryGuard.Proofs.Grammar.Shape
/-!
Induction over what the grammar derives: what is kept by each of its rules holds of all expressions,
and of all conditions.

The rules of conditions and of queries refer to each other through lists and optional parts, so the
induction is on the number of lexemes; a construct has no more of them than what it is a part of.
-/

set_option autoImplicit false

namespace QueryGuard.Grammar

/-- What the rule derives from at most `n` lexemes. -/
def Sized {α : Type} (n : Nat) (item : Rule α) : Rule α :=
  fun words value => words.length ≤ n ∧ item words value

section

variable {α : Type} {item : Rule α} {separator token : Token} {words : List Lexeme} {n : Nat}

theorem Behind.sized {value : α} (behind : Behind token item words value)
    (small : words.length ≤ n) : Behind token (Sized n item) words value := by
  cases behind with
  | mk same holds => exact .mk same ⟨Nat.le_of_succ_le small, holds⟩

theorem Maybe.sized {value : Option α} (maybe : Maybe item words value)
    (small : words.length ≤ n) : Maybe (Sized n item) words value := by
  cases maybe with
  | absent => exact .absent
  | present holds => exact .present ⟨small, holds⟩

theorem Repeated.sized {values : List α} (repeated : Repeated item words values)
    (small : words.length ≤ n) : Repeated (Sized n item) words values := by
  induction repeated with
  | none => exact .none
  | more first _ ih =>
    rw [List.length_append] at small
    exact .more ⟨by omega, first⟩ (ih (by omega))

theorem Separated.sized {values : List α} (separated : Separated separator item words values)
    (small : words.length ≤ n) : Separated separator (Sized n item) words values := by
  cases separated with
  | mk first others =>
    rw [List.length_append] at small
    exact .mk ⟨by omega, first⟩
      ((others.sized (by omega)).mono fun _ _ behind => behind.2.sized behind.1)

end

section

variable {Condition : Type} {rule : Rule Condition} {words : List Lexeme} {n : Nat}

theorem Maybe.sized_behind {token : Token} {value : Option Condition}
    (maybe : Maybe (Behind token rule) words value) (small : words.length ≤ n) :
    Maybe (Behind token (Sized n rule)) words value :=
  (maybe.sized small).mono fun _ _ behind => behind.2.sized behind.1

theorem IsJoin.sized {join : Join Condition} (isJoin : IsJoin rule words join)
    (small : words.length ≤ n) : IsJoin (Sized n rule) words join := by
  cases isJoin with
  | mk announced joined as goesBy related required whole =>
    refine .mk announced joined as goesBy (related.sized_behind ?_) required whole
    subst whole
    simp only [List.length_append] at small
    omega

theorem IsSelect.sized {query : Select Condition} (isSelect : IsSelect rule words query)
    (small : words.length ≤ n) : IsSelect (Sized n rule) words query := by
  cases isSelect with
  | mk announced skips selected root joined filtered grouped kept ordered limited skipped whole =>
    have parts := congrArg List.length whole
    simp only [List.length_cons, List.length_append] at parts
    refine .mk announced skips selected root ?_ (filtered.sized_behind ?_) grouped
      (kept.sized_behind ?_) ordered limited skipped whole
    · exact (joined.sized (n := n) (by omega)).mono fun _ _ isJoin => isJoin.2.sized isJoin.1
    · omega
    · omega

end

/-- What the rules of expressions keep holds of all expressions. -/
theorem IsExpr.induction (rule : Rule Expr)
    (path : ∀ {words : List Lexeme} {path : Path}, IsPath words path → rule words (.path path))
    (literal : ∀ {words : List Lexeme} {literal : Located Literal}, IsLiteral words literal →
      rule words (.literal literal))
    (parameter : ∀ {lexeme : Lexeme} {marker : String}, lexeme.token = .parameter marker →
      rule [lexeme] (.parameter ⟨marker, lexeme.span⟩))
    (aggregate : ∀ {callee opening closing : Lexeme} {words words' : List Lexeme} {name : String}
      {function : Aggregate} {distinct : Bool} {argument : Expr}, callee.token = .name name →
      Aggregate.ofName? name = some function → opening.token = .symbol .openParen →
      Optionally (.keyword .distinct) words distinct → rule words' argument →
      closing.token = .symbol .closeParen →
      rule (callee :: opening :: (words ++ (words' ++ [closing])))
        (.aggregate function distinct argument (callee.span.merge closing.span)))
    (call : ∀ {callee opening closing : Lexeme} {words : List Lexeme} {name : String}
      {arguments : Option (List Expr)}, callee.token = .name name → Aggregate.ofName? name = none →
      opening.token = .symbol .openParen → Maybe (Separated (.symbol .comma) rule) words arguments →
      closing.token = .symbol .closeParen →
      rule (callee :: opening :: (words ++ [closing]))
        (.call ⟨name, callee.span⟩ (arguments.getD []) (callee.span.merge closing.span)))
    {words : List Lexeme} {expr : Expr} (isExpr : IsExpr words expr) : rule words expr := by
  have bounded : ∀ n {words expr}, Sized n IsExpr words expr → rule words expr := by
    intro n
    induction n with
    | zero =>
      rintro words expr ⟨small, isExpr⟩
      exact absurd (List.length_eq_zero_iff.mp (Nat.le_zero.mp small)) isExpr.begins.ne_nil
    | succ n ih =>
      rintro words expr ⟨small, isExpr⟩
      cases isExpr with
      | path holds => exact path holds
      | literal holds => exact literal holds
      | parameter same => exact parameter same
      | aggregate called known opened skips inside closed =>
        simp only [List.length_cons, List.length_append] at small
        exact aggregate called known opened skips (ih ⟨by omega, inside⟩) closed
      | call called custom opened inside closed =>
        simp only [List.length_cons, List.length_append] at small
        refine call called custom opened ?_ closed
        exact (inside.sized (n := n) (by omega)).mono fun _ _ chain =>
          (chain.2.sized chain.1).mono fun _ _ => ih
  exact bounded words.length ⟨Nat.le_refl _, isExpr⟩

/-- A condition that the grammar derives, and that the rule derives too. -/
def Both (rule : Rule Predicate) : Rule Predicate :=
  fun words predicate => IsPredicate words predicate ∧ rule words predicate

/-- What the rules of conditions keep, at the four levels of the grammar, holds of all conditions;
of a query inside, it may be used for the conditions. -/
theorem IsPredicate.induction (whole conjunction negation atom : Rule Predicate)
    (anyOf : ∀ {words : List Lexeme} {operands : List Predicate},
      Separated (.keyword .or) conjunction words operands → whole words (.anyOf operands))
    (allOf : ∀ {words : List Lexeme} {operands : List Predicate},
      Separated (.keyword .and) negation words operands → conjunction words (.allOf operands))
    (affirmed : ∀ {words : List Lexeme} {predicate : Predicate}, atom words predicate →
      negation words predicate)
    (negated : ∀ {lexeme : Lexeme} {words : List Lexeme} {predicate : Predicate},
      lexeme.token = .keyword .not → negation words predicate →
      negation (lexeme :: words) (opposite predicate))
    (group : ∀ {words : List Lexeme} {predicate : Predicate}, Enclosed whole words predicate →
      atom words (.group predicate))
    (existsIn : ∀ {lexeme : Lexeme} {words : List Lexeme} {query : Query},
      lexeme.token = .keyword .exists → Enclosed (IsSelect (Both whole)) words query →
      atom (lexeme :: words) (.existsIn query false))
    (inQuery : ∀ {member : Lexeme} {words words' words'' : List Lexeme} {tested : Expr}
      {query : Query} {negated : Bool}, IsExpr words tested →
      Optionally (.keyword .not) words' negated → member.token = .keyword .in →
      Enclosed (IsSelect (Both whole)) words'' query →
      atom (words ++ (words' ++ member :: words'')) (.inQuery tested query negated))
    (test : ∀ {words words' : List Lexeme} {tested : Expr} {test : Test}, IsExpr words tested →
      IsTest tested words' test → atom (words ++ words') (.test test))
    {words : List Lexeme} {predicate : Predicate} (isPredicate : IsPredicate words predicate) :
    whole words predicate := by
  -- A negation is one lexeme longer than its operand, but a disjunction may be as long as its only
  -- part: the induction is for conditions and negations together.
  have bounded : ∀ n,
      (∀ words predicate, Sized n IsPredicate words predicate → whole words predicate) ∧
        ∀ words predicate, Sized n IsNegation words predicate → negation words predicate := by
    intro n
    induction n with
    | zero =>
      have nonempty : ∀ {words predicate}, Sized 0 IsNegation words predicate → False := by
        rintro words predicate ⟨small, isNegation⟩
        obtain ⟨_, _, rfl, _⟩ := isNegation.starts
        exact absurd small (Nat.not_succ_le_zero _)
      refine ⟨?_, fun _ _ holds => (nonempty holds).elim⟩
      rintro words predicate ⟨small, ⟨chain⟩⟩
      refine anyOf ((chain.sized small).mono fun _ _ => ?_)
      rintro ⟨small, ⟨chain⟩⟩
      exact allOf ((chain.sized small).mono fun _ _ holds => (nonempty holds).elim)
    | succ n ih =>
      have nested : ∀ {words query}, Sized (n + 2) (Enclosed IsQuery) words query →
          Enclosed (IsSelect (Both whole)) words query := by
        rintro words query ⟨small, ⟨opened, isQuery, closed⟩⟩
        simp only [List.length_cons, List.length_append] at small
        refine .mk opened ((isQuery.sized (n := n) (by omega)).mono fun _ _ holds => ?_) closed
        exact ⟨holds.2, ih.1 _ _ holds⟩
      have isAtom : ∀ {words predicate}, Sized (n + 1) IsAtom words predicate →
          atom words predicate := by
        rintro words predicate ⟨small, holds⟩
        cases holds with
        | group inside =>
          cases inside with
          | mk opened holds closed =>
            simp only [List.length_cons, List.length_append] at small
            exact group (.mk opened (ih.1 _ _ ⟨by omega, holds⟩) closed)
        | existsIn announced inside =>
          simp only [List.length_cons] at small
          exact existsIn announced (nested ⟨by omega, inside⟩)
        | inQuery value opposite announced inside =>
          simp only [List.length_append, List.length_cons] at small
          exact inQuery value opposite announced (nested ⟨by omega, inside⟩)
        | test value holds => exact test value holds
      have isNegation : ∀ {words predicate}, Sized (n + 1) IsNegation words predicate →
          negation words predicate := by
        rintro words predicate ⟨small, holds⟩
        cases holds with
        | affirmed holds => exact affirmed (isAtom ⟨small, holds⟩)
        | negated not operand =>
          exact negated not (ih.2 _ _ ⟨Nat.le_of_succ_le_succ small, operand⟩)
      refine ⟨?_, fun _ _ => isNegation⟩
      rintro words predicate ⟨small, ⟨chain⟩⟩
      refine anyOf ((chain.sized small).mono fun _ _ => ?_)
      rintro ⟨small, ⟨chain⟩⟩
      exact allOf ((chain.sized small).mono fun _ _ => isNegation)
  exact (bounded words.length).1 _ _ ⟨Nat.le_refl _, isPredicate⟩

end QueryGuard.Grammar
