import QueryGuard.Proofs.Reading.Expressions
import QueryGuard.Syntax.Parts
/-!
Printed tests are read back.
-/

set_option autoImplicit false

namespace QueryGuard

/-- What the test itself needs to be written down: a list has items, and a parameter is one. -/
def Test.Shaped : Test → Prop
  | .inList _ items _ => items ≠ []
  | .inParameter _ parameter _ => Lexing.IsMarker parameter.value.toList
  | _ => True

/-- The test can be written down. -/
structure Test.Printable (test : Test) : Prop where
  exprs : ∀ expr ∈ test.exprs, expr.Printable
  shape : test.Shaped

open Lexing Parse

/-- A closing parenthesis, or one of the given reserved words. -/
def closing (keywords : List Keyword) (token : Token) : Bool :=
  token = .symbol .closeParen || keywords.any fun keyword => token = .keyword keyword

/-- What may follow a condition. -/
def afterCondition : List Keyword :=
  [.join, .inner, .left, .where, .group, .having, .order, .limit, .offset]

/-- What may follow an operand of AND. -/
def afterOperand : List Keyword := .and :: .or :: afterCondition

theorem closing_iff {keywords : List Keyword} {token : Token} :
    closing keywords token ↔
      token = .symbol .closeParen ∨ ∃ keyword ∈ keywords, token = .keyword keyword := by
  simp [closing]

namespace Follows

variable {keywords keywords' : List Keyword} {rest : List Word}

theorem closing_mono (follows : Follows (closing keywords) rest) (more : keywords ⊆ keywords') :
    Follows (closing keywords') rest := by
  apply follows.mono
  intro token holds
  rw [closing_iff] at holds ⊢
  exact holds.imp_right fun ⟨keyword, found, same⟩ => ⟨keyword, more found, same⟩

theorem ends (follows : Follows (closing keywords) rest) : Follows endsExpr rest := by
  apply follows.mono
  intro token holds
  rcases closing_iff.mp holds with rfl | ⟨keyword, _, rfl⟩ <;> rfl

theorem ne_keyword (follows : Follows (closing keywords) rest) {keyword : Keyword}
    (other : keyword ∉ keywords) : Follows (fun token => token ≠ .keyword keyword) rest := by
  apply follows.mono
  intro token holds
  rcases closing_iff.mp holds with rfl | ⟨found, member, rfl⟩
  · simp
  · simp only [ne_eq, Token.keyword.injEq, decide_not, Bool.not_eq_true', decide_eq_false_iff_not]
    rintro rfl
    exact other member

theorem ne_symbol (follows : Follows (closing keywords) rest) {symbol : Symbol}
    (other : symbol ≠ .closeParen) : Follows (fun token => token ≠ .symbol symbol) rest := by
  apply follows.mono
  intro token holds
  rcases closing_iff.mp holds with rfl | ⟨found, member, rfl⟩
  · simpa using other.symm
  · simp

end Follows

/-- A comparison and a space may stand in front of anything. -/
theorem spelled_comparison (comparison : Comparison) :
    ∃ word : Word, comparison? word.token = some comparison ∧
      Spelled anything (comparison.spelling.toList ++ [' ']) [word] := by
  have written : ∀ {c : Char} (token : Token) (rest : List Char),
      front c rest = (.token token, rest.length) →
      (∀ more, front c (rest ++ ' ' :: more) = (.token token, rest.length)) →
      Spelled anything ((c :: rest) ++ [' ']) [⟨token, String.ofList (c :: rest)⟩] := by
    intro c token rest alone before
    refine Spelled.append (E := fun d => d = ' ') (Spelled.token fun after starts => ?_)
      (Spelled.nil anything).space rfl
    cases after with
    | nil => rw [List.append_nil, alone]
    | cons d more =>
      obtain rfl : d = ' ' := by simpa using starts d rfl
      exact before more
  cases comparison with
  | equal => exact ⟨_, rfl, written (.symbol .equal) [] rfl fun _ => rfl⟩
  | notEqual => exact ⟨_, rfl, written (.symbol .notEqual) ['>'] rfl fun _ => rfl⟩
  | less => exact ⟨_, rfl, written (.symbol .less) [] rfl fun _ => rfl⟩
  | lessEqual => exact ⟨_, rfl, written (.symbol .lessEqual) ['='] rfl fun _ => rfl⟩
  | greater => exact ⟨_, rfl, written (.symbol .greater) [] rfl fun _ => rfl⟩
  | greaterEqual => exact ⟨_, rfl, written (.symbol .greaterEqual) ['='] rfl fun _ => rfl⟩

/-- The word before a negated test, and a further word. -/
theorem spelled_negation (negated : Bool) (keyword : Keyword) :
    Spelled anything (Printing.negation negated ++ (keyword.spelling.toList ++ [' ']))
      (Keyword.not.word.when negated ++ [keyword.word]) := by
  cases negated with
  | false => exact spelled_keyword_space keyword
  | true => exact (spelled_keyword_space .not).appendAny (spelled_keyword_space keyword)

namespace Parse.Reads

variable {query : Parse Query} {tested tested' : Expr} {words rest : List Word} {negated : Bool}

/-- A test that may be negated, from its first reserved word on. -/
theorem negatable {keyword : Keyword} {good : Predicate → Prop} (other : keyword ≠ .is)
    (affirmed : keyword ≠ .not)
    (reads : Reads (negatableTest query tested negated) (keyword.word :: words) rest good) :
    Reads (test query tested) (Keyword.not.word.when negated ++ keyword.word :: words) rest good := by
  obtain ⟨first, more, shown, starts⟩ : ∃ first more,
      Keyword.not.word.when negated ++ keyword.word :: words = Keyword.word first :: more ∧
        first ≠ .is := by
    cases negated with
    | false => exact ⟨keyword, words, rfl, other⟩
    | true => exact ⟨.not, keyword.word :: words, rfl, by decide⟩
  have noComparison : ((Keyword.not.word.when negated ++ keyword.word :: words) ++ rest).head?.map
      Word.token = some (.keyword first) := by
    rw [shown]
    rfl
  apply peek
  simp only [noComparison, Option.bind_some, comparison?]
  refine passed ?_ ?_
  · rw [shown]
    apply Follows.cons
    simpa [Keyword.word] using starts
  · refine bind (accept_optional rfl (.cons ?_)) ?_
    · simpa [Keyword.word] using affirmed
    · rintro _ rfl
      exact reads

theorem compare {comparison : Comparison} {right : Expr} {word : Word}
    (same : tested'.unplaced = tested.unplaced)
    (shown : comparison? word.token = some comparison) (isExpr : IsExpr words right)
    (follows : Follows endsExpr rest) :
    Reads (test query tested') (word :: words) rest
      (·.unplaced = (Predicate.test (.compare tested comparison right)).unplaced) := by
  apply peek
  simp only [List.cons_append, List.head?_cons, Option.map_some, Option.bind_some, shown]
  refine head skip fun _ _ => all (isExpr.expression follows) fun found right => pure ?_
  simp only [Predicate.unplaced_test, Test.unplaced, same, right]

theorem isNull (same : tested'.unplaced = tested.unplaced) :
    Reads (test query tested')
      (Keyword.is.word :: (Keyword.not.word.when negated ++ [Keyword.null.word])) rest
      (·.unplaced = (Predicate.test (.isNull tested negated)).unplaced) := by
  apply peek
  refine accepted rfl (bind (accept_optional rfl (.cons (by decide))) ?_)
  rintro _ rfl
  exact expecting rfl fun _ => pure (by simp only [Predicate.unplaced_test, Test.unplaced, same])

theorem between {low high : Expr} {words' : List Word} (same : tested'.unplaced = tested.unplaced)
    (isLow : IsExpr words low) (isHigh : IsExpr words' high) (follows : Follows endsExpr rest) :
    Reads (test query tested')
      (Keyword.not.word.when negated ++
        Keyword.between.word :: (words ++ Keyword.and.word :: words')) rest
      (·.unplaced = (Predicate.test (.between tested low high negated)).unplaced) := by
  refine negatable (by decide) (by decide) (passed (.cons (by decide)) (accepted rfl ?_))
  apply bind (isLow.expression (.cons (by decide)))
  intro low' sameLow
  refine expecting rfl fun _ => all (isHigh.expression follows) fun high' sameHigh => pure ?_
  simp only [Predicate.unplaced_test, Test.unplaced, same, sameLow, sameHigh]

theorem like {pattern : Expr} {escape : Option Name} {words' : List Word}
    (same : tested'.unplaced = tested.unplaced) (isPattern : IsExpr words pattern)
    (escaped : match escape with
      | none => words' = []
      | some text => ∃ word : Word, words' = [Keyword.escape.word, word] ∧
          word.token = .string text.value)
    (follows : Follows (closing afterOperand) rest) :
    Reads (test query tested')
      (Keyword.not.word.when negated ++ Keyword.like.word :: (words ++ words')) rest
      (·.unplaced = (Predicate.test (.like tested pattern escape negated)).unplaced) := by
  refine negatable (by decide) (by decide) (passed (.cons (by decide)) (passed (.cons (by decide))
    (accepted rfl ?_)))
  have ends : Follows endsExpr (words' ++ rest) := by
    cases escape with
    | none => rw [escaped]; exact follows.ends
    | some text =>
      obtain ⟨word, rfl, _⟩ := escaped
      exact .cons (by decide)
  apply bind (isPattern.expression ends)
  intro pattern' samePattern
  refine all (P := fun found => found.map Located.unplaced = escape.map Located.unplaced) ?_
    fun found sameEscape => pure ?_
  · cases escape with
    | none =>
      rw [escaped]
      exact passed (follows.ne_keyword (by decide)) (pure rfl)
    | some text =>
      obtain ⟨word, rfl, isText⟩ := escaped
      refine accepted rfl (all (P := fun found => found.value = text.value) ?_ fun found same =>
        pure (by simp only [Option.map_some, Located.unplaced, same]))
      apply of_lexeme
      rintro cursor ⟨token, written, span⟩ lexemes left rfl
      obtain rfl : token = .string text.value := isText
      exact ⟨⟨text.value, span⟩, by simp only [escapeCharacter, left], rfl⟩
  · simp only [Predicate.unplaced_test, Test.unplaced, same, samePattern, sameEscape]

theorem inParameter {parameter : Name} {word : Word} (same : tested'.unplaced = tested.unplaced)
    (shown : word.token = .parameter parameter.value) :
    Reads (test query tested')
      (Keyword.not.word.when negated ++ [Keyword.in.word, word]) rest
      (·.unplaced = (Predicate.test (.inParameter tested parameter negated)).unplaced) := by
  refine negatable (by decide) (by decide) (accepted rfl (peek ?_))
  simp only [List.cons_append, List.head?_cons, Option.map_some, shown]
  refine here fun span => all skip fun _ _ => pure ?_
  simp only [Predicate.unplaced_test, Test.unplaced, same, Located.unplaced]

theorem inList {items : List Expr} (same : tested'.unplaced = tested.unplaced)
    (chain : Chain IsExpr Symbol.comma.word words items) :
    Reads (test query tested')
      (Keyword.not.word.when negated ++ Keyword.in.word ::
        Symbol.openParen.word :: (words ++ [Symbol.closeParen.word])) rest
      (·.unplaced = (Predicate.test (.inList tested items negated)).unplaced) := by
  have starts : Follows (fun token => token ≠ .keyword .select)
      ((words ++ [Symbol.closeParen.word]) ++ rest) := by
    rw [List.append_assoc]
    exact chain.head (P := fun words => Follows (fun found => found ≠ .keyword .select)
      (words ++ ([Symbol.closeParen.word] ++ rest))) fun words expr more isExpr => by
        rw [List.append_assoc]
        exact isExpr.follows rfl
  refine negatable (by decide) (by decide) (accepted rfl (peek ?_))
  refine expecting rfl fun _ => unpeeked starts ?_
  apply bind (Reads.expressions chain (.cons (by decide)) (.cons (by decide)))
  intro found shown
  refine expecting rfl fun _ => pure ?_
  simp only [Predicate.unplaced_test, Test.unplaced, same, shown]

end Parse.Reads

/-- The words are read as the test. -/
structure IsTest (words : List Word) (test : Test) : Prop where
  starts : ∃ word more, words = word :: more ∧ startsExpr word.token
  reads : ∀ query rest, Follows (closing afterOperand) rest →
    Reads (do let tested ← expression; Parse.test query tested) words rest
      (·.unplaced = (Predicate.test test).unplaced)

/-- The tested expression, and what is read behind it. -/
theorem IsTest.of_behind {words words' : List Word} {tested : Expr} {test : Test}
    (isExpr : IsExpr words tested) (apart : Follows endsExpr words') (nonempty : words' ≠ [])
    (behind : ∀ query tested' rest, Follows (closing afterOperand) rest →
      tested'.unplaced = tested.unplaced →
      Reads (Parse.test query tested') words' rest
        (·.unplaced = (Predicate.test test).unplaced)) :
    IsTest (words ++ words') test where
  starts := by
    obtain ⟨word, more, rfl, starts⟩ := isExpr.starts
    exact ⟨word, more ++ words', rfl, starts⟩
  reads query rest follows :=
    Reads.bind (isExpr.expression (apart.append nonempty)) fun tested' same =>
      behind query tested' rest follows same

theorem follows_negated {negated : Bool} {keyword : Keyword} {words : List Word} :
    Follows endsExpr (Keyword.not.word.when negated ++ keyword.word :: words) := by
  cases negated <;> exact .cons rfl

/-- A printed test is read back. -/
theorem Test.Printable.isTest {test : Test} (printable : test.Printable) :
    ∃ words, Spelled endsWord test.print words ∧ IsTest words test := by
  obtain ⟨exprs, shape⟩ := printable
  cases test with
  | compare left comparison right =>
    obtain ⟨words, spelled, isLeft⟩ := (exprs left (by simp [Test.exprs])).isExpr
    obtain ⟨words', spelled', isRight⟩ := (exprs right (by simp [Test.exprs])).isExpr
    obtain ⟨word, shown, operator⟩ := spelled_comparison comparison
    have behind := (operator.appendAny spelled').space
    rw [List.append_assoc] at behind
    refine ⟨_, spelled.append behind rfl, .of_behind isLeft (.cons ?_) (List.cons_ne_nil _ _) ?_⟩
    · cases token : word.token with
      | symbol symbol => cases symbol <;> first | rfl | (rw [token] at shown; contradiction)
      | _ => rfl
    · exact fun query tested' rest follows same => Reads.compare same shown isRight follows.ends
  | inList tested items negated =>
    obtain ⟨words, spelled, isTested⟩ := (exprs tested (by simp [Test.exprs])).isExpr
    obtain ⟨words', spelled', chain⟩ := isExpr_list shape fun expr found =>
      exprs expr (by simp [Test.exprs, found])
    have behind := ((spelled_negation negated .in).appendAny
      (spelled_parenthesized (E := endsWord) spelled')).space
    exact ⟨_, (spelled.append behind rfl).of_eq rfl (by rw [List.append_assoc]; rfl),
      .of_behind isTested follows_negated (by simp) fun _ _ _ _ same => Reads.inList same chain⟩
  | inParameter tested parameter negated =>
    obtain ⟨words, spelled, isTested⟩ := (exprs tested (by simp [Test.exprs])).isExpr
    obtain ⟨word, shown, spelled'⟩ := spelled_parameter shape
    have behind := ((spelled_negation negated .in).appendAny spelled').space
    have text : Printing.negation negated ++ "in :".toList ++ parameter.value.toList =
        Printing.negation negated ++ "in ".toList ++ ':' :: parameter.value.toList := by
      rw [List.append_assoc, List.append_assoc]
      rfl
    exact ⟨_, (spelled.append behind rfl).of_eq (by rw [Test.print, text]; rfl)
      (by rw [List.append_assoc]; rfl), .of_behind isTested follows_negated (by simp)
      fun _ _ _ _ same => Reads.inParameter same shown⟩
  | between tested low high negated =>
    obtain ⟨words, spelled, isTested⟩ := (exprs tested (by simp [Test.exprs])).isExpr
    obtain ⟨lows, spelledLow, isLow⟩ := (exprs low (by simp [Test.exprs])).isExpr
    obtain ⟨highs, spelledHigh, isHigh⟩ := (exprs high (by simp [Test.exprs])).isExpr
    have lower := (spelled_negation negated .between).appendAny spelledLow
    have behind := ((lower.append (spelled_keyword_space .and).space rfl).appendAny
      spelledHigh).space
    exact ⟨_, (spelled.append behind rfl).of_eq rfl (by simp only [List.append_assoc]; rfl),
      .of_behind isTested follows_negated (by simp) fun _ _ _ follows same =>
        Reads.between same isLow isHigh follows.ends⟩
  | isNull tested negated =>
    obtain ⟨words, spelled, isTested⟩ := (exprs tested (by simp [Test.exprs])).isExpr
    have null : Spelled endsWord Keyword.null.spelling.toList [Keyword.null.word] :=
      (spelled_keyword .null).mono endsPart_of_endsWord
    have behind : Spelled endsWord (Printing.negation negated ++ Keyword.null.spelling.toList)
        (Keyword.not.word.when negated ++ [Keyword.null.word]) := by
      cases negated with
      | false => exact null
      | true => exact (spelled_keyword_space .not).appendAny null
    have word : Spelled anything (' ' :: (Keyword.is.spelling.toList ++ [' '])) [Keyword.is.word] :=
      (spelled_keyword_space .is).space
    have is := (spelled.append word rfl).appendAny behind
    exact ⟨_, is.of_eq (by rw [Test.print, List.append_assoc _ (Printing.negation negated)]; rfl)
      (by rw [List.append_assoc]; rfl), .of_behind isTested
      (.cons rfl) (List.cons_ne_nil _ _) fun _ _ _ _ same => Reads.isNull same⟩
  | like tested pattern escape negated =>
    obtain ⟨words, spelled, isTested⟩ := (exprs tested (by simp [Test.exprs])).isExpr
    obtain ⟨words', spelled', isPattern⟩ := (exprs pattern (by simp [Test.exprs])).isExpr
    have like := (spelled_negation negated .like).appendAny spelled'
    cases escape with
    | none =>
      exact ⟨_, (spelled.append like.space rfl).of_eq (by simp [Test.print, Printing.clause]; rfl)
        (by rw [List.append_nil, List.append_assoc]; rfl),
        .of_behind isTested follows_negated (by simp) fun _ _ _ follows same =>
          Reads.like same isPattern rfl follows⟩
    | some text =>
      obtain ⟨word, shown, written⟩ := spelled_string text.value
      have behind := like.append ((spelled_keyword_space .escape).appendAny written).space rfl
      exact ⟨_, (spelled.append behind.space rfl).of_eq rfl
        (by simp only [List.append_assoc]; rfl),
        .of_behind isTested follows_negated (by simp) fun _ _ _ follows same =>
          Reads.like same isPattern ⟨word, rfl, shown⟩ follows⟩

end QueryGuard
