import QueryGuard.Proofs.Grammar.Deciding
import QueryGuard.Proofs.Grammar.Induction
import QueryGuard.Proofs.Lexing.Tiling
import QueryGuard.Proofs.Siblings.Rereading
/-!
The parameter markers of a query are the parameter tokens of its text, in the order of the text.

Each rule of the grammar is shown to keep all markers of its lexemes, and to add none. The order of
the clauses in a walk matters here, and that no clause is left out; what stands where only names,
numbers or reserved words may stand is no marker.
-/

set_option autoImplicit false

namespace QueryGuard

/-- The name of a parameter token. -/
def Token.parameter? : Token → Option String
  | .parameter text => some text
  | _ => none

/-- The marker that a lexeme is, with its place. -/
def Lexeme.marker? (lexeme : Lexeme) : Option Name :=
  lexeme.token.parameter?.map fun name => ⟨name, lexeme.span⟩

namespace Grammar

/-- The markers among lexemes. -/
def markersOf (words : List Lexeme) : List Name := words.filterMap Lexeme.marker?

variable {words words' : List Lexeme}

@[simp] theorem markersOf_append :
    markersOf (words ++ words') = markersOf words ++ markersOf words' :=
  List.filterMap_append

/-- A lexeme of another kind adds no marker. -/
theorem markersOf_cons {lexeme : Lexeme} {token : Token} (same : lexeme.token = token)
    (other : token.parameter? = none) : markersOf (lexeme :: words) = markersOf words :=
  List.filterMap_cons_none (by rw [Lexeme.marker?, same, other, Option.map_none])

theorem markersOf_single {lexeme : Lexeme} {token : Token} (same : lexeme.token = token)
    (other : token.parameter? = none) : markersOf [lexeme] = [] := markersOf_cons same other

theorem markersOf_parameter {lexeme : Lexeme} {marker : String}
    (same : lexeme.token = .parameter marker) : markersOf [lexeme] = [⟨marker, lexeme.span⟩] :=
  List.filterMap_cons_some (by rw [Lexeme.marker?, same]; rfl)

/-! ### Rules -/

/-- What the rule derives has just the markers of its lexemes. -/
def Marks {α : Type} (item : Rule α) (list : α → List Name) : Prop :=
  ∀ words value, item words value → list value = markersOf words

section

variable {α : Type} {item : Rule α} {list : α → List Name} {token : Token}

theorem Optionally.unmarked {keyword : Keyword} {there : Bool}
    (optionally : Optionally (.keyword keyword) words there) : markersOf words = [] := by
  cases optionally with
  | absent => rfl
  | present same => exact markersOf_single same rfl

theorem Behind.marks (each : Marks item list) (other : token.parameter? = none) :
    Marks (Behind token item) list := by
  rintro _ _ ⟨same, holds⟩
  rw [markersOf_cons same other]
  exact each _ _ holds

theorem Enclosed.marks (each : Marks item list) : Marks (Enclosed item) list := by
  rintro _ _ ⟨opened, holds, closed⟩
  rw [markersOf_cons opened rfl, markersOf_append, markersOf_single closed rfl, List.append_nil]
  exact each _ _ holds

theorem Maybe.marks (each : Marks item list) :
    Marks (Maybe item) fun value => (value.map list).getD [] := by
  intro words value maybe
  cases maybe with
  | absent => rfl
  | present holds => exact each _ _ holds

theorem Repeated.marks (each : Marks item list) :
    Marks (Repeated item) (List.flatMap list) := by
  intro words values repeated
  induction repeated with
  | none => rfl
  | more first _ ih => rw [List.flatMap_cons, ih, each _ _ first, markersOf_append]

theorem Separated.marks (each : Marks item list) (other : token.parameter? = none) :
    Marks (Separated token item) (List.flatMap list) := by
  rintro _ _ ⟨first, others⟩
  rw [List.flatMap_cons, each _ _ first, Repeated.marks (Behind.marks each other) _ _ others,
    markersOf_append]

theorem Maybe.marks_by {keyword : Keyword} (each : Marks item list) :
    Marks (Maybe (IsListBy keyword item)) fun values => (values.getD []).flatMap list := by
  intro words values maybe
  cases maybe with
  | absent => rfl
  | present chain =>
    exact Behind.marks (Behind.marks (Separated.marks each rfl) rfl) rfl _ _ chain

end

/-! ### Names and numbers -/

/-- Constructs of the rule have no markers. -/
abbrev Unmarked {α : Type} (item : Rule α) : Prop := Marks item fun _ => []

theorem Maybe.unmarked {α : Type} {item : Rule α} {token : Token} {value : Option α}
    (maybe : Maybe (Behind token item) words value) (each : Unmarked item)
    (other : token.parameter? = none) : markersOf words = [] := by
  cases maybe with
  | absent => rfl
  | present behind => exact (Behind.marks each other _ _ behind).symm

theorem IsIdentifier.unmarked : Unmarked IsIdentifier := by
  intro words name isIdentifier
  cases isIdentifier with
  | plain same | quoted same => exact (markersOf_single same rfl).symm

theorem IsWord.unmarked : Unmarked IsWord := by
  intro words name isWord
  cases isWord with
  | identifier holds => exact IsIdentifier.unmarked _ _ holds
  | reserved same => exact (markersOf_single same rfl).symm

theorem IsText.unmarked : Unmarked IsText := by
  rintro _ _ ⟨same⟩
  exact (markersOf_single same rfl).symm

theorem IsCount.unmarked : Unmarked IsCount := by
  rintro _ _ ⟨same⟩
  exact (markersOf_single same rfl).symm

theorem IsPath.unmarked : Unmarked IsPath := by
  rintro _ _ ⟨first, others⟩
  have attributes := Repeated.marks (Behind.marks IsWord.unmarked rfl) _ _ others
  rw [markersOf_append, ← IsIdentifier.unmarked _ _ first, ← attributes]
  exact (List.flatMap_eq_nil_iff.mpr fun _ _ => rfl).symm

theorem IsLiteral.unmarked : Unmarked IsLiteral := by
  intro words literal isLiteral
  cases isLiteral with
  | string same | integer same | decimal same | true same | false same | null same =>
    exact (markersOf_single same rfl).symm
  | negativeInteger minus same | negativeDecimal minus same =>
    rw [markersOf_cons minus rfl, markersOf_single same rfl]

theorem IsRange.unmarked : Unmarked IsRange := by
  rintro _ _ ⟨kind, as, goesBy⟩
  rw [markersOf_append, markersOf_append, ← IsWord.unmarked _ _ kind, as.unmarked,
    ← IsIdentifier.unmarked _ _ goesBy]
  rfl

theorem IsJoinKind.unmarked : Unmarked IsJoinKind := by
  intro words kind isJoinKind
  cases isJoinKind with
  | inner inner same => rw [markersOf_append, inner.unmarked, markersOf_single same rfl]; rfl
  | left announced outer same =>
    rw [markersOf_cons announced rfl, markersOf_append, outer.unmarked, markersOf_single same rfl]
    rfl

theorem IsJoinTarget.unmarked : Unmarked IsJoinTarget := by
  intro words target isTarget
  cases isTarget with
  | path holds _ => exact IsPath.unmarked _ _ holds
  | entity holds => exact IsWord.unmarked _ _ holds

/-! ### Expressions -/

theorem IsExpr.marks : Marks IsExpr Expr.markers := by
  intro words expr isExpr
  refine IsExpr.induction (fun words expr => expr.markers = markersOf words)
    (fun holds => IsPath.unmarked _ _ holds) (fun holds => IsLiteral.unmarked _ _ holds)
    (fun same => (markersOf_parameter same).symm) ?aggregate ?call isExpr
  case aggregate =>
    intro callee opening closing words words' name function distinct argument called _ opened skips
      inside closed
    rw [markersOf_cons called rfl, markersOf_cons opened rfl, markersOf_append, markersOf_append,
      skips.unmarked, markersOf_single closed rfl, List.nil_append, List.append_nil, ← inside]
    rfl
  case call =>
    intro callee opening closing words name arguments called _ opened inside closed
    rw [markersOf_cons called rfl, markersOf_cons opened rfl, markersOf_append,
      markersOf_single closed rfl, List.append_nil, Expr.markers_call]
    cases inside with
    | absent => rfl
    | present chain => exact Separated.marks (fun _ _ holds => holds) rfl _ _ chain

theorem IsTest.marks {tested : Expr} {test : Test} (value : IsExpr words tested)
    (isTest : IsTest tested words' test) : test.markers = markersOf (words ++ words') := by
  rw [markersOf_append, ← IsExpr.marks _ _ value]
  cases isTest with
  | compare written _ other =>
    rw [markersOf_cons written rfl, ← IsExpr.marks _ _ other]
    simp only [Test.markers, Test.exprs, List.flatMap_cons, List.flatMap_nil, List.append_nil]
  | inList opposite announced listed =>
    rw [markersOf_append, opposite.unmarked, markersOf_cons announced rfl,
      ← Enclosed.marks (Separated.marks IsExpr.marks rfl) _ _ listed]
    rfl
  | inParameter opposite announced same =>
    rw [markersOf_append, opposite.unmarked, markersOf_cons announced rfl, markersOf_parameter same]
    rfl
  | between opposite announced least joined most =>
    rw [markersOf_append, opposite.unmarked, markersOf_cons announced rfl, markersOf_append,
      markersOf_cons joined rfl, ← IsExpr.marks _ _ least, ← IsExpr.marks _ _ most]
    simp only [Test.markers, Test.exprs, List.flatMap_cons, List.flatMap_nil, List.append_nil,
      List.nil_append]
  | isNull announced opposite same =>
    rw [markersOf_cons announced rfl, markersOf_append, opposite.unmarked,
      markersOf_single same rfl]
    simp only [Test.markers, Test.exprs, List.flatMap_cons, List.flatMap_nil, List.append_nil]
  | like opposite announced matched escaped =>
    rw [markersOf_append, opposite.unmarked, markersOf_cons announced rfl, markersOf_append,
      escaped.unmarked IsText.unmarked rfl, ← IsExpr.marks _ _ matched]
    simp only [Test.markers, Test.exprs, List.flatMap_cons, List.flatMap_nil, List.append_nil,
      List.nil_append]

theorem IsSelectItem.marks : Marks IsSelectItem fun item => item.expr.markers := by
  intro words item isItem
  cases isItem with
  | bare value => exact IsExpr.marks _ _ value
  | labelled value as name =>
    rw [markersOf_append, markersOf_append, as.unmarked, ← IsIdentifier.unmarked _ _ name,
      ← IsExpr.marks _ _ value]
    simp only [List.append_nil]

theorem IsOrderItem.marks : Marks IsOrderItem fun item => item.expr.markers := by
  intro words item isItem
  cases isItem with
  | ascending value asc =>
    rw [markersOf_append, asc.unmarked, List.append_nil]
    exact IsExpr.marks _ _ value
  | descending value desc =>
    rw [markersOf_append, markersOf_single desc rfl, List.append_nil]
    exact IsExpr.marks _ _ value

/-! ### Queries -/

section

variable {Condition : Type} {rule : Rule Condition} {list : Condition → List Name}

theorem IsJoin.marks (each : Marks rule list) :
    Marks (IsJoin rule) fun join => (join.condition.map list).getD [] := by
  rintro _ _ ⟨announced, joined, as, goesBy, related, _, whole⟩
  rw [whole, markersOf_append, markersOf_append, markersOf_append, markersOf_append,
    ← IsJoinKind.unmarked _ _ announced, ← IsJoinTarget.unmarked _ _ joined, as.unmarked,
    ← IsIdentifier.unmarked _ _ goesBy, ← Maybe.marks (Behind.marks each rfl) _ _ related]
  rfl

theorem IsSelect.marks (each : Marks rule list) :
    Marks (IsSelect rule) fun query => (query.map list).markersFrom := by
  rintro _ _ ⟨announced, skips, selected, root, joined, filtered, grouped, kept, ordered, limited,
    skipped, whole⟩
  rw [whole, markersOf_cons announced rfl]
  simp only [markersOf_append, skips.unmarked, limited.unmarked IsCount.unmarked rfl,
    skipped.unmarked IsCount.unmarked rfl,
    ← Separated.marks IsSelectItem.marks rfl _ _ selected,
    ← Behind.marks IsRange.unmarked rfl _ _ root, ← Repeated.marks (IsJoin.marks each) _ _ joined,
    ← Maybe.marks (Behind.marks each rfl) _ _ filtered, ← Maybe.marks_by IsExpr.marks _ _ grouped,
    ← Maybe.marks (Behind.marks each rfl) _ _ kept, ← Maybe.marks_by IsOrderItem.marks _ _ ordered,
    Select.markersFrom, Select.map, List.flatMap_map, Join.map, List.append_assoc, List.nil_append,
    List.append_nil]

end

/-- The markers of a condition are those of the lexemes. -/
def Marked : Rule Predicate := fun words predicate => predicate.markers = markersOf words

theorem IsPredicate.marks : Marks IsPredicate Predicate.markers := by
  have nested : ∀ {words query}, Enclosed (IsSelect (Both Marked)) words query →
      Query.markers query = markersOf words := by
    intro words query inside
    rw [Query.markers, Query.fold_eq]
    exact Enclosed.marks (IsSelect.marks fun _ _ both => both.2) _ _ inside
  have opposite : ∀ predicate, (opposite predicate).markers = predicate.markers := by
    intro predicate
    unfold Grammar.opposite
    split <;> rfl
  intro words predicate isPredicate
  refine IsPredicate.induction Marked Marked Marked Marked
    ?anyOf ?allOf id ?negated ?group ?existsIn ?inQuery ?test isPredicate
  case anyOf =>
    intro words operands chain
    exact (Predicate.flatMap_anyOf Predicate.markers_or operands).trans
      (Separated.marks (fun _ _ holds => holds) rfl _ _ chain)
  case allOf =>
    intro words operands chain
    exact (Predicate.flatMap_allOf Predicate.markers_and operands).trans
      (Separated.marks (fun _ _ holds => holds) rfl _ _ chain)
  case negated =>
    intro lexeme words predicate not operand
    exact (opposite predicate).trans (operand.trans (markersOf_cons not rfl).symm)
  case group =>
    intro words predicate inside
    exact Enclosed.marks (fun _ _ holds => holds) words predicate inside
  case existsIn =>
    intro lexeme words query announced inside
    exact (nested inside).trans (markersOf_cons announced rfl).symm
  case inQuery =>
    intro member words words' words'' tested query negated value opposite announced inside
    have both : tested.markers ++ Query.markers query = markersOf words ++ markersOf words'' :=
      congrArg₂ _ (IsExpr.marks _ _ value) (nested inside)
    change tested.markers ++ Query.markers query = _
    rw [both, markersOf_append, markersOf_append, opposite.unmarked, markersOf_cons announced rfl,
      List.nil_append]
  case test => exact fun value holds => IsTest.marks value holds

theorem IsQuery.marks : Marks IsQuery Query.markers := by
  intro words query isQuery
  rw [Query.markers, Query.fold_eq]
  exact IsSelect.marks IsPredicate.marks _ _ isQuery

end Grammar

/-- The markers of a query are the parameter tokens of its text, in their order and at their places,
each of them once. -/
theorem Query.parse_markers_complete {source : String} {depth : Nat} {query : Query}
    (parsed : Query.parse source depth = .ok query) :
    ∃ lexemes, tokenize source = .ok lexemes ∧ query.markers = lexemes.filterMap Lexeme.marker? ∧
      query.markers.Pairwise fun first second => first.span.Before second.span := by
  obtain ⟨lexemes, tokens, isQuery, _⟩ := ((Query.parse_derives depth).2.2 source query).mp parsed
  have listed : query.markers = lexemes.filterMap Lexeme.marker? :=
    Grammar.IsQuery.marks lexemes query isQuery
  have ordered := (tiles_of_tokenize tokens).increasing
  have placed : ∀ {lexeme : Lexeme} {marker : Name}, lexeme.marker? = some marker →
      marker.span = lexeme.span := by
    intro lexeme marker found
    obtain ⟨_, _, rfl⟩ := Option.map_eq_some_iff.mp found
    rfl
  refine ⟨lexemes, tokens, listed, ?_⟩
  rw [listed, List.pairwise_filterMap]
  refine ordered.imp fun before marker found marker' found' => ?_
  rw [placed found, placed found']
  exact before

/-- Each clause has a marker, one of them in a query inside, and two have the same name. -/
theorem Query.parse_markers_complete_clauses : ∃ query lexemes,
    Query.parse "select f(:a) from A a join B b on b.x in :c where exists (select c from C c where c.y = :b) group by g(:d) having count(a) > :a order by h(:e)"
      1 = .ok query ∧
    tokenize "select f(:a) from A a join B b on b.x in :c where exists (select c from C c where c.y = :b) group by g(:d) having count(a) > :a order by h(:e)" =
      .ok lexemes ∧
    query.markers.map (·.value) = ["a", "c", "b", "d", "a", "e"] ∧
    query.markers = lexemes.filterMap Lexeme.marker? ∧
    query.markers.Pairwise fun first second => first.span.Before second.span := by
  have runs : (Query.parse "select f(:a) from A a join B b on b.x in :c where exists (select c from C c where c.y = :b) group by g(:d) having count(a) > :a order by h(:e)"
      1).toOption.map (fun query => query.markers.map (·.value)) =
      some ["a", "c", "b", "d", "a", "e"] := by
    decide +kernel
  obtain ⟨query, parsed, names⟩ := Option.map_eq_some_iff.mp runs
  obtain ⟨lexemes, tokens, listed, ordered⟩ :=
    Query.parse_markers_complete (ok_of_toOption parsed)
  exact ⟨query, lexemes, ok_of_toOption parsed, tokens, names, listed, ordered⟩

end QueryGuard
