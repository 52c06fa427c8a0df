import QueryGuard.Proofs.Grammar.Taking
import QueryGuard.Proofs.Reading.Conditions
/-!
What the grammar derives is accepted by the parser, within the limit on queries inside each other.

An expression is read with a bound of at least its number of lexemes, and a condition with a
greater one, since each level of nesting reads one lexeme.
-/

set_option autoImplicit false

namespace QueryGuard.Grammar

open Parse

/-! ### Expressions -/

/-- A name is the start of a path where no parenthesis follows. -/
theorem expr_path {depth finish : Nat} {previous : Span} {lexeme : Lexeme} {rest : List Lexeme}
    {name : Name} (isIdentifier : IsIdentifier [lexeme] name)
    (noCall : Ahead (fun found => found ≠ .symbol .openParen) rest) :
    Parse.expr (depth + 1) ⟨previous, lexeme :: rest, finish⟩ =
      (Expr.path <$> Parse.pathFrom name) ⟨lexeme.span, rest, finish⟩ := by
  obtain ⟨token, written, span⟩ := lexeme
  cases isIdentifier with
  | quoted same =>
    obtain rfl : token = _ := same
    rfl
  | plain same =>
    obtain rfl : token = _ := same
    cases rest with
    | nil => rfl
    | cons second more =>
      obtain ⟨token, written', span'⟩ := second
      have other : token ≠ .symbol .openParen := by
        rintro rfl
        exact noCall.head_ne rfl
      cases token with
      | symbol symbol => cases symbol <;> first | rfl | exact absurd rfl other
      | keyword | name | quotedName | parameter | string | integer | decimal => rfl

/-- A name is called where a parenthesis follows. -/
theorem expr_call {depth finish : Nat} {previous : Span} {callee opening : Lexeme}
    {rest : List Lexeme} {text : String} (called : callee.token = .name text)
    (opened : opening.token = .symbol .openParen) :
    Parse.expr (depth + 1) ⟨previous, callee :: opening :: rest, finish⟩ =
      Parse.arguments (Parse.expr depth) ⟨text, callee.span⟩ ⟨opening.span, rest, finish⟩ := by
  obtain ⟨token, written, span⟩ := callee
  obtain ⟨token', written', span'⟩ := opening
  obtain rfl : token = _ := called
  obtain rfl : token' = _ := opened
  rfl

namespace Takes

variable {previous : Span} {words words' rest : List Lexeme}

theorem pathFrom {root : Name} {attributes : List Name}
    (others : Repeated (Behind (.symbol .dot) IsWord) words attributes)
    (follows : Ahead (fun found => found ≠ .symbol .dot) rest) :
    Takes previous (Parse.pathFrom root) words rest
      ⟨root, attributes, attributes.foldl (fun span name => span.merge name.span) root.span⟩ := by
  refine all (measured fun size enough => ?_) pure
  exact more (E := fun _ => true) rfl (fun _ _ _ _ isWord _ _ _ => word isWord) others
    (Nat.le_refl _) (List.Subset.refl _) (follows.mono fun _ _ => rfl) follows size enough

theorem negativeNumber {sign : Span} {lexeme : Lexeme} {value : Literal}
    (same : negated? lexeme.token = some value) :
    Takes previous (Parse.negativeNumber sign) [lexeme] rest
      (.literal ⟨value, sign.merge lexeme.span⟩) := by
  apply peek
  simp only [List.cons_append, List.head?_cons, Option.map_some, Option.bind_some, same]
  exact here rfl (skip pure)

theorem literal {depth : Nat} {literal : Located Literal} (isLiteral : IsLiteral words literal) :
    Takes previous (Parse.expr (depth + 1)) words rest (.literal literal) := by
  intro finish
  have single : ∀ {lexeme : Lexeme} {token : Token} {value : Literal}, lexeme.token = token →
      (∀ written span, Parse.expr (depth + 1) ⟨previous, ⟨token, written, span⟩ :: rest, finish⟩ =
        .ok (.literal ⟨value, span⟩, ⟨span, rest, finish⟩)) →
      Parse.expr (depth + 1) ⟨previous, [lexeme] ++ rest, finish⟩ =
        .ok (.literal ⟨value, lexeme.span⟩, ⟨lexeme.span, rest, finish⟩) := by
    rintro ⟨token, written, span⟩ _ value rfl reads
    exact reads written span
  have signed : ∀ {sign lexeme : Lexeme} {token : Token} {value : Literal},
      sign.token = .symbol .minus → lexeme.token = token → negated? token = some value →
      Parse.expr (depth + 1) ⟨previous, [sign, lexeme] ++ rest, finish⟩ =
        .ok (.literal ⟨value, extent [sign, lexeme]⟩, ⟨lexeme.span, rest, finish⟩) := by
    rintro ⟨_, written, span⟩ lexeme _ value rfl rfl same
    have reads : Takes span (Parse.negativeNumber span) [lexeme] rest _ := negativeNumber same
    exact reads finish
  cases isLiteral with
  | string same => exact single same fun _ _ => rfl
  | integer same => exact single same fun _ _ => rfl
  | decimal same => exact single same fun _ _ => rfl
  | true same => exact single same fun _ _ => rfl
  | false same => exact single same fun _ _ => rfl
  | null same => exact single same fun _ _ => rfl
  | negativeInteger minus same => exact signed minus same rfl
  | negativeDecimal minus same => exact signed minus same rfl

theorem arguments {step : Parse Expr} {name : Name} {closing : Lexeme} {distinct : Bool}
    {given : Option (List Expr)} {value : Expr}
    (skips : Optionally (.keyword .distinct) words distinct)
    (inside : Maybe (Separated (.symbol .comma) IsExpr) words' given)
    (closed : closing.token = .symbol .closeParen)
    (each : ∀ previous words'' rest expr, IsExpr words'' expr → words''.length ≤ words'.length →
      Ahead endsExpr rest → Takes previous step words'' rest expr)
    (made : callOf name distinct (given.getD []) closing.span = Pure.pure value) :
    Takes previous (Parse.arguments step name) (words ++ (words' ++ [closing])) rest value := by
  have close : ∀ previous, Takes previous
      (closeParen >>= callOf name distinct (given.getD [])) [closing] rest value :=
    fun previous => expecting closed (by rw [made]; exact pure)
  cases inside with
  | absent =>
    refine optionally skips (.cons closed rfl) (peek ?_)
    simp only [List.nil_append, List.cons_append, List.head?_cons, Option.map_some, closed, if_pos]
    exact close _
  | present chain =>
    have other : ∀ {token}, startsExpr token = false →
        Ahead (fun found => found ≠ token) ((words' ++ [closing]) ++ rest) := by
      intro token other
      rw [List.append_assoc]
      exact (chain.begins fun _ _ isExpr => isExpr.begins).other other
    refine optionally skips (other rfl) (peek ?_)
    rw [if_neg (other rfl).head_ne]
    refine bind (separated chain (E := endsExpr) rfl ?_ ?_ ?_) (close _)
    · exact fun _ _ _ _ isExpr small _ follows => each _ _ _ _ isExpr small follows
    · exact .cons closed rfl
    · exact .cons closed rfl

/-- Arguments are read at a smaller depth, and have fewer lexemes than their call. -/
theorem expr (depth : Nat) {expr : Expr} (isExpr : IsExpr words expr)
    (enough : words.length ≤ depth) (follows : Ahead endsExpr rest) :
    Takes previous (Parse.expr depth) words rest expr := by
  induction depth generalizing previous words rest expr with
  | zero =>
    obtain ⟨lexeme, more, rfl, _⟩ := isExpr.begins
    simp at enough
  | succ depth ih =>
    have ends : Ahead (fun found => found ≠ .symbol .dot) rest ∧
        Ahead (fun found => found ≠ .symbol .openParen) rest :=
      ⟨follows.mono fun _ holds => (Bool.and_eq_true_iff.mp holds).1,
        follows.mono fun _ holds => (Bool.and_eq_true_iff.mp holds).2⟩
    cases isExpr with
    | literal holds => exact literal holds
    | @parameter lexeme marker same =>
      obtain ⟨token, written, span⟩ := lexeme
      obtain rfl : token = _ := same
      exact fun finish => rfl
    | path holds =>
      cases holds with
      | @mk _ words' root attributes first others =>
        obtain ⟨lexeme, rfl, _⟩ := first.single
        intro finish
        have noCall : Ahead (fun found => found ≠ .symbol .openParen) (words' ++ rest) := by
          cases others with
          | none => exact ends.2
          | more next _ =>
            cases next with
            | mk dot _ => exact .cons dot rfl
        exact (expr_path first noCall).trans (map (pathFrom others ends.1) finish)
    | @aggregate callee opening closing words words' name function distinct argument called known
        opened skips inside closed =>
      simp only [List.length_cons, List.length_append] at enough
      have chain : Separated (.symbol .comma) IsExpr (words' ++ []) [argument] := .mk inside .none
      rw [List.append_nil] at chain
      refine fun finish => (expr_call called opened).trans
        (arguments skips (.present chain) closed (fun _ _ _ _ isExpr small follows =>
          ih isExpr (by omega) follows) ?_ finish)
      simp only [callOf, known]
      rfl
    | @call callee opening closing words name given called custom opened inside closed =>
      simp only [List.length_cons, List.length_append] at enough
      refine fun finish => (expr_call called opened).trans
        (arguments .absent inside closed (fun _ _ _ _ isExpr small follows =>
          ih isExpr (by omega) follows) ?_ finish)
      simp only [callOf, custom]
      rfl

theorem expression {expr : Expr} (isExpr : IsExpr words expr) (follows : Ahead endsExpr rest) :
    Takes previous Parse.expression words rest expr :=
  measured fun size enough => Takes.expr size isExpr enough follows

theorem expressions {exprs : List Expr} (chain : Separated (.symbol .comma) IsExpr words exprs)
    (follows : Ahead endsExpr rest) (other : Ahead (fun found => found ≠ .symbol .comma) rest) :
    Takes previous (commaList Parse.expression) words rest exprs :=
  separated chain (E := endsExpr) rfl
    (fun _ _ _ _ isExpr _ _ follows => expression isExpr follows) follows other

/-! ### Tests -/

section

variable {query : Parse Query} {tested : Expr} {negated : Bool}

/-- A test that may have NOT in front of its reserved word. -/
theorem negatable {lexeme : Lexeme} {keyword : Keyword} {value : Predicate}
    (opposite : Optionally (.keyword .not) words negated)
    (announced : lexeme.token = .keyword keyword) (noIs : keyword ≠ .is) (noNot : keyword ≠ .not)
    (takes : ∀ previous, Takes previous (Parse.negatableTest query tested negated)
      (lexeme :: words') rest value) :
    Takes previous (Parse.test query tested) (words ++ lexeme :: words') rest value := by
  have first : ∃ first more, words ++ lexeme :: words' = first :: more ∧
      (first.token = .keyword .not ∨ first.token = .keyword keyword) := by
    cases opposite with
    | absent => exact ⟨lexeme, words', rfl, .inr announced⟩
    | present same => exact ⟨_, _, rfl, .inl same⟩
  obtain ⟨first, more, split, token⟩ := first
  have noComparison : ((words ++ lexeme :: words' ++ rest).head?.map (·.token)).bind comparison? =
      none := by
    rw [split]
    rcases token with same | same <;> simp [same, comparison?]
  have other : Ahead (fun found => found ≠ .keyword .is) (words ++ lexeme :: words' ++ rest) := by
    rw [split]
    rcases token with same | same <;> exact .cons_ne (by simp [same, noIs])
  apply peek
  simp only [noComparison]
  exact passed other (optionally opposite (.cons_ne (by simp [announced, noNot])) (takes _))

theorem inList {member : Lexeme} {items : List Expr}
    (announced : member.token = .keyword .in)
    (listed : Enclosed (Separated (.symbol .comma) IsExpr) words items) :
    Takes previous (Parse.negatableTest query tested negated) (member :: words) rest
      (.test (.inList tested items negated)) := by
  refine accepted announced ?_
  cases listed with
  | @mk opening closing words items opened chain closed =>
    apply peek
    simp only [List.cons_append, List.head?_cons, Option.map_some, opened]
    refine expecting opened (unpeeked ?_ (bind (expressions chain ?_ ?_) (expecting closed pure)))
    · rw [List.append_assoc]
      exact (chain.begins fun _ _ isExpr => isExpr.begins).other rfl
    · exact .cons closed rfl
    · exact .cons closed rfl

theorem inQuery {member : Lexeme} {found : Query} (announced : member.token = .keyword .in)
    (inside : Enclosed IsQuery words found)
    (nested : ∀ previous words' rest, IsQuery words' found → words'.length < words.length →
      Ahead (closing []) rest → Takes previous query words' rest found) :
    Takes previous (Parse.negatableTest query tested negated) (member :: words) rest
      (.inQuery tested found negated) := by
  refine accepted announced ?_
  cases inside with
  | @mk opening closing words _ opened isQuery closed =>
    obtain ⟨select, more, rfl, same⟩ := isQuery.starts
    apply peek
    simp only [List.cons_append, List.head?_cons, Option.map_some, opened]
    refine expecting opened (peeked same (bind (nested _ _ _ isQuery (by simp) ?_)
      (expecting closed pure)))
    exact .cons closed rfl

theorem escapeCharacter {text : Name} (isText : IsText words text) :
    Takes previous Parse.escapeCharacter words rest text := by
  cases isText with
  | @mk lexeme text same =>
    obtain ⟨token, written, span⟩ := lexeme
    obtain rfl : token = _ := same
    exact fun _ => rfl

theorem test {test : Test} (isTest : IsTest tested words test)
    (follows : Ahead (closing afterOperand) rest) :
    Takes previous (Parse.test query tested) words rest (.test test) := by
  have ends : Ahead endsExpr rest := follows.ends
  cases isTest with
  | @compare operator symbol comparison words right written compares other =>
    apply peek
    simp only [List.cons_append, List.head?_cons, Option.map_some, Option.bind_some, written,
      comparison?_of_spelling compares]
    exact skip (all (expression other ends) pure)
  | @inList member words words' negated items opposite announced listed =>
    exact negatable opposite announced (by decide) (by decide) fun _ => inList announced listed
  | @inParameter member lexeme words negated marker opposite announced same =>
    refine negatable opposite announced (by decide) (by decide) fun _ => accepted announced ?_
    apply peek
    simp only [List.cons_append, List.head?_cons, Option.map_some, same]
    exact here rfl (skip pure)
  | @between between and words words' words'' negated low high opposite announced least joined
      most =>
    refine negatable opposite announced (by decide) (by decide) fun _ =>
      passed (.cons announced rfl) (accepted announced ?_)
    refine bind (expression least ?_) (expecting joined (all (expression most ends) pure))
    exact .cons joined rfl
  | @isNull is null words negated announced opposite same =>
    apply peek
    simp only [List.cons_append, List.head?_cons, Option.map_some, Option.bind_some, announced,
      comparison?]
    exact accepted announced (optionally opposite (.cons same rfl) (expecting same pure))
  | @like like words words' words'' negated pattern escape opposite announced matched escaped =>
    refine negatable opposite announced (by decide) (by decide) fun _ =>
      passed (.cons announced rfl) (passed (.cons announced rfl)
        (accepted announced ?_))
    have behind : Ahead endsExpr (words'' ++ rest) := by
      cases escaped with
      | absent => exact ends
      | present behind =>
        cases behind with
        | mk same _ => exact .cons same rfl
    exact bind (expression matched behind) (all (clause escaped
      (fun _ _ _ isText _ _ => escapeCharacter isText) (follows.ne_keyword (by decide))) pure)

end

/-! ### Conditions -/

section

variable {condition step : Parse Predicate} {query : Parse Query}

/-- The conditions and queries inside an atom are shorter than it, and only a query inside takes
from the limit. -/
theorem atom {predicate : Predicate} (isAtom : IsAtom words predicate)
    (group : ∀ previous words' rest inner, IsPredicate words' inner →
      words'.length < words.length → inner.nesting ≤ predicate.nesting →
      Ahead (closing afterCondition) rest → Takes previous condition words' rest inner)
    (nested : ∀ previous words' rest inner, IsQuery words' inner →
      words'.length < words.length → inner.nesting < predicate.nesting →
      Ahead (closing []) rest → Takes previous query words' rest inner)
    (follows : Ahead (closing afterOperand) rest) :
    Takes previous (Parse.atom condition query) words rest predicate := by
  cases isAtom with
  | group inside =>
    cases inside with
    | @mk opening closing words inner opened isPredicate closed =>
      have small : words.length < (opening :: (words ++ [closing])).length := by
        simp only [List.length_cons, List.length_append]
        omega
      refine accepted opened (bind (group _ _ _ _ isPredicate small (Nat.le_refl _) ?_)
        (expecting closed pure))
      exact .cons closed rfl
  | @existsIn lexeme words inner announced inside =>
    cases inside with
    | @mk opening closing words inner opened isQuery closed =>
      have small : words.length < (lexeme :: opening :: (words ++ [closing])).length := by
        simp only [List.length_cons, List.length_append]
        omega
      refine passed (.cons announced rfl) (accepted announced (expecting opened
        (bind (nested _ _ _ _ isQuery small (Nat.lt_succ_self _) ?_)
          (expecting closed pure))))
      exact .cons closed rfl
  | @inQuery member words words' words'' tested inner negated value opposite announced inside =>
    refine passed (value.begins.append.other rfl) (passed (value.begins.append.other rfl)
      (bind (expression value (opposite.ends announced)) (negatable opposite announced (by decide)
        (by decide) fun _ => inQuery announced inside ?_)))
    intro previous words' rest isQuery small follows
    refine nested _ _ _ _ isQuery ?_ (Nat.lt_succ_self _) follows
    simp only [List.length_append, List.length_cons]
    omega
  | @test words words' tested test value holds =>
    refine passed (value.begins.append.other rfl) (passed (value.begins.append.other rfl)
      (bind (expression value ?_) (Takes.test holds follows)))
    exact holds.ends

theorem negation {predicate : Predicate} (isNegation : IsNegation words predicate) (bound : Nat)
    (enough : words.length ≤ bound)
    (each : ∀ previous words' rest inner, IsAtom words' inner → words'.length ≤ words.length →
      inner.nesting ≤ predicate.nesting → Ahead (closing afterOperand) rest →
      Takes previous step words' rest inner)
    (follows : Ahead (closing afterOperand) rest) :
    Takes previous (Parse.negation step bound) words rest predicate := by
  induction bound generalizing previous words predicate with
  | zero =>
    obtain ⟨lexeme, more, rfl, _⟩ := isNegation.starts
    simp at enough
  | succ bound ih =>
    cases isNegation with
    | affirmed holds =>
      obtain ⟨lexeme, more, rfl, noNot, _⟩ := holds.starts
      exact passed (.cons_ne noNot) (each _ _ _ _ holds (Nat.le_refl _) (Nat.le_refl _) follows)
    | @negated lexeme words inner not operand =>
      rw [nesting_opposite] at each
      have shorter : words.length ≤ (lexeme :: words).length := by simp
      obtain ⟨first, more, rfl, starts⟩ := operand.starts
      -- With EXISTS behind it, NOT is read together with the atom.
      by_cases ahead : first.token = .keyword .exists
      · have isAtom := operand.isAtom (by simp [ahead])
        obtain ⟨query, rfl⟩ := starts.mp ahead
        exact accepted not (peeked ahead (all (each _ _ _ _ isAtom shorter (Nat.le_refl _) follows)
          pure))
      · rw [opposite_of_ne fun query same => ahead (starts.mpr ⟨query, same⟩)]
        refine accepted not (unpeeked (.cons_ne ahead) (all (ih operand ?_ ?_) pure))
        · simpa using enough
        · exact fun _ _ _ _ holds small => each _ _ _ _ holds (Nat.le_trans small shorter)

theorem disjunction {predicate : Predicate} (isPredicate : IsPredicate words predicate)
    (each : ∀ previous words' rest inner, IsAtom words' inner → words'.length ≤ words.length →
      inner.nesting ≤ predicate.nesting → Ahead (closing afterOperand) rest →
      Takes previous step words' rest inner)
    (follows : Ahead (closing afterCondition) rest) :
    Takes previous (Parse.disjunction step) words rest predicate := by
  cases isPredicate with
  | @mk words disjuncts chain =>
    refine map (separated chain (E := closing (.or :: afterCondition)) rfl ?_
      (follows.closing_mono (List.subset_cons_self _ _)) (follows.ne_keyword (by decide)))
    intro previous words₁ rest disjunct isConjunction small₁ member₁ follows
    have within₁ := Predicate.nesting_le_anyOf member₁
    cases isConjunction with
    | @mk words₁ conjuncts chain =>
      refine map (separated chain (E := closing afterOperand) rfl ?_
        (follows.closing_mono (List.subset_cons_self _ _)) (follows.ne_keyword (by decide)))
      intro previous words₂ rest conjunct isNegation small₂ member₂ follows
      have within₂ := Predicate.nesting_le_allOf member₂
      exact measured fun size enough => negation isNegation size enough
        (fun _ _ _ _ isAtom small within => each _ _ _ _ isAtom (by omega) (by omega)) follows

end

/-! ### Queries -/

theorem rangeName {label : Name} (goesBy : IsIdentifier words label) :
    Takes previous (fun cursor =>
      match Parse.name .rangeAlias cursor with
      | .error (.unexpected expected found span _) =>
          .error (.unexpected expected found span (some .rangeAlias))
      | result => result) words rest label := by
  intro finish
  have reads : Takes previous (Parse.name .rangeAlias) words rest label := name goesBy
  simp only [reads finish]

theorem range {range : Range} (isRange : IsRange words range) :
    Takes previous Parse.range words rest range := by
  cases isRange with
  | @mk words words' words'' entity label there kind as goesBy =>
    exact bind (word kind)
      (optionally as (goesBy.other (by simp) (by simp)) (all (rangeName goesBy) pure))

theorem selectItem {item : SelectItem} (isItem : IsSelectItem words item)
    (follows : Ahead afterItem rest) : Takes previous Parse.selectItem words rest item := by
  cases isItem with
  | @bare words expr value =>
    refine all (expression value (follows.mono fun token holds => ?_)) (passed ?_ (peek ?_))
    · rcases afterItem_iff.mp holds with rfl | rfl <;> rfl
    · exact follows.mono fun token holds => by rcases afterItem_iff.mp holds with rfl | rfl <;> rfl
    · rcases follows.nil_or_cons with rfl | ⟨lexeme, more, rfl, holds⟩
      · exact pure
      · simp only [List.nil_append, List.head?_cons, Option.map_some]
        rcases afterItem_iff.mp holds with same | same <;>
        · rw [same]
          exact pure
  | @labelled words words' words'' expr there label value as isLabel =>
    have labelled : ∀ previous,
        Takes previous (some <$> Parse.name .label) words'' rest (some label) :=
      fun _ => map (name isLabel)
    -- Also without AS, a name cannot go on with the expression in front of it.
    have ends : Ahead endsExpr ((words' ++ words'') ++ rest) := by
      cases as with
      | present same => exact .cons same rfl
      | absent =>
        obtain ⟨lexeme, rfl, same | same⟩ := isLabel.single
        · exact .cons same rfl
        · exact .cons same rfl
    refine bind (expression value ends) ?_
    cases as with
    | present same => exact accepted same (all (labelled _) pure)
    | absent =>
      refine passed (isLabel.other (by simp) (by simp)) (peek ?_)
      obtain ⟨lexeme, rfl, same | same⟩ := isLabel.single <;>
      · simp only [List.nil_append, List.cons_append, List.head?_cons, Option.map_some, same]
        exact all (labelled _) pure

theorem joinKind {kind : JoinKind} (isJoinKind : IsJoinKind words kind) :
    Takes previous Parse.joinKind words rest kind := by
  have announced : ∀ {previous : Span} {lexeme : Lexeme} {kind : JoinKind},
      lexeme.token = .keyword .join →
      Takes previous (do
        let kind ← Pure.pure kind
        let _ ← expectKeyword .join
        Pure.pure kind) [lexeme] rest kind :=
    fun same => before pure (expecting same pure)
  cases isJoinKind with
  | @inner lexeme words there inner same =>
    refine passed ?_ (optionally inner (.cons same rfl) (announced same))
    cases inner with
    | absent => exact .cons same rfl
    | present same' => exact .cons same' rfl
  | left announced' outer same =>
    exact accepted announced' (optionally outer (.cons same rfl) (announced same))

theorem joinTarget {target : JoinTarget} (isTarget : IsJoinTarget words target)
    (follows : Ahead (fun found => found ≠ .symbol .dot) rest) :
    Takes previous Parse.joinTarget words rest target := by
  cases isTarget with
  | path holds along =>
    cases holds with
    | @mk words words' root attributes first others =>
      obtain ⟨lexeme, rfl, isName⟩ := first.single
      have dot : (words' ++ rest).head?.map (·.token) = some (.symbol .dot) := by
        cases others with
        | none => exact absurd rfl along
        | more next _ =>
          cases next with
          | mk same _ => exact congrArg some same
      have path : ∀ previous, Takes previous (do
          let path ← Parse.pathFrom root
          Pure.pure (JoinTarget.path path)) words' rest (.path ⟨root, attributes, _⟩) :=
        fun _ => all (pathFrom others follows) pure
      refine peek (bind (word (.identifier first)) (peek ?_))
      rcases isName with same | same <;>
      · simp only [List.cons_append, List.head?_cons, Option.map_some, same, dot]
        exact path _
  | entity holds =>
    refine peek (all (word holds) (peek ?_))
    rw [if_neg (by simp [follows.head_ne])]
    exact pure

theorem orderItem {item : OrderItem} (isItem : IsOrderItem words item)
    (follows : Ahead afterOrderItem rest) :
    Takes previous Parse.orderItem words rest item := by
  cases isItem with
  | @ascending words words' expr there value asc =>
    rw [lastPlace_congr (by simp [value.begins.ne_nil]) expr.span previous, lastPlace_append]
    have ends : Ahead endsExpr rest ∧ Ahead (fun found => found ≠ .keyword .desc) rest ∧
        Ahead (fun found => found ≠ .keyword .asc) rest := by
      refine ⟨follows.mono ?_, follows.mono ?_, follows.mono ?_⟩ <;>
      · intro token holds
        rcases afterOrderItem_iff.mp holds with rfl | rfl | rfl | rfl <;> rfl
    cases asc with
    | absent =>
      rw [List.append_nil]
      refine all (expression value ends.1) (passed ends.2.1 (passed ends.2.2 ?_))
      exact last pure
    | present same =>
      refine bind (expression value (.cons same rfl))
        (passed (.cons same rfl) (accepted same ?_))
      exact last pure
  | @descending lexeme words expr value desc =>
    refine bind (expression value (.cons desc rfl)) (accepted desc ?_)
    exact last pure

theorem count {keyword : Keyword} {number : Located Nat} (isCount : IsCount words number) :
    Takes previous (Parse.count keyword) words rest number := by
  cases isCount with
  | @mk lexeme value same =>
    obtain ⟨token, written, span⟩ := lexeme
    obtain rfl : token = _ := same
    exact fun _ => rfl

/-- A list that two reserved words announce; without them it is empty. -/
theorem byClause {α : Type} {keyword : Keyword} {keywords : List Keyword} {step : Parse α}
    {item : Rule α} {list : Option (List α)} {E : Token → Bool}
    (maybe : Maybe (IsListBy keyword item) words list)
    (each : ∀ previous words' rest value, item words' value → Ahead E rest →
      Takes previous step words' rest value)
    (follows : Ahead (closing keywords) rest) (other : keyword ∉ keywords)
    (separates : E (.symbol .comma)) (closes : ∀ token, closing keywords token → E token) :
    Takes previous (Parse.byClause keyword step) words rest (list.getD []) := by
  refine all (clause maybe (fun previous words' items behind _ _ => ?_)
    (follows.ne_keyword other)) pure
  cases behind with
  | mk same chain =>
    exact expecting same (separated chain separates (fun _ _ _ _ holds _ _ => each _ _ _ _ holds)
      (follows.mono closes) (follows.ne_symbol (by decide)))

section

variable {condition : Parse Predicate} {rule : Rule Predicate}

theorem join {join : Join Predicate} (isJoin : IsJoin rule words join)
    (each : ∀ previous words' rest inner, rule words' inner → words'.length < words.length →
      inner ∈ join.condition → Ahead (closing afterCondition) rest →
      Takes previous condition words' rest inner)
    (follows : Ahead (closing afterCondition) rest) :
    Takes previous (Parse.join condition) words rest join := by
  cases isJoin with
  | @mk words words₁ words₂ words₃ words₄ words₅ kind target label on there announced joined as
      goesBy related required whole =>
    subst whole
    obtain ⟨start, more, rfl⟩ := List.exists_cons_of_ne_nil announced.ne_nil
    have place : extent (start :: more ++ (words₂ ++ (words₃ ++ (words₄ ++ words₅)))) =
        start.span.merge (lastPlace (lastPlace (lastPlace (lastPlace (lastPlace previous
          (start :: more)) words₂) words₃) words₄) words₅) := by
      simp only [← lastPlace_append, List.append_assoc]
      rfl
    rw [place]
    have named : ∀ {words rest : List Lexeme} {token : Token}, (∀ text, token ≠ .name text) →
        (∀ text, token ≠ .quotedName text) →
        Ahead (fun found => found ≠ token) ((words₄ ++ words) ++ rest) := by
      intro words rest token plain quoted
      rw [List.append_assoc]
      exact goesBy.other plain quoted
    have noDot : Ahead (fun found => found ≠ .symbol .dot)
        ((words₃ ++ (words₄ ++ words₅)) ++ rest) := by
      cases as with
      | present same => exact .cons same rfl
      | absent => exact named (by simp) (by simp)
    refine here rfl (bind (joinKind announced) (bind (joinTarget joined noDot)
      (optionally as (named (by simp) (by simp)) (bind (name goesBy)
        (all (clause related ?_ ?_) ?_)))))
    · intro previous words' inner holds small member
      refine each _ _ _ _ holds ?_ member follows
      simp only [List.length_append] at small ⊢
      omega
    · exact follows.ne_keyword (by decide)
    · split
      · have there := required _ rfl
        contradiction
      · exact last pure

theorem atJoin (begins : Begins startsJoin words) :
    Takes previous Parse.atJoin [] (words ++ rest) true := by
  obtain ⟨lexeme, more, rfl, starts⟩ := begins
  apply peek
  simp only [List.nil_append, List.cons_append, List.head?_cons, Option.map_some]
  rcases startsJoin_iff.mp starts with same | same | same <;>
  · rw [same]
    exact pure

theorem not_atJoin
    (follows : Ahead (closing afterJoins) rest) :
    Takes previous Parse.atJoin [] rest false := by
  apply peek
  rcases follows.nil_or_cons with rfl | ⟨lexeme, more, rfl, holds⟩
  · exact pure
  · simp only [List.nil_append, List.head?_cons, Option.map_some]
    rcases closing_iff.mp holds with same | ⟨keyword, member, same⟩
    · rw [same]
      exact pure
    · rw [same]
      simp only [afterJoins, List.mem_cons, List.not_mem_nil, or_false] at member
      rcases member with rfl | rfl | rfl | rfl | rfl | rfl <;> exact pure

/-- Conditions are read in joins that are part of `n` lexemes, if they are among the given ones. -/
theorem joins {n : Nat} {among : List Predicate} {joins : List (Join Predicate)}
    (repeated : Repeated (IsJoin rule) words joins) (small : words.length ≤ n)
    (known : joins.filterMap (·.condition) ⊆ among)
    (each : ∀ previous words' rest inner, rule words' inner → words'.length < n →
      inner ∈ among → Ahead (closing afterCondition) rest →
      Takes previous condition words' rest inner)
    (follows : Ahead (closing afterJoins) rest)
    (bound : Nat) (enough : words.length ≤ bound) :
    Takes previous (Parse.joins condition bound) words rest joins := by
  induction repeated generalizing previous bound with
  | none =>
    cases bound with
    | zero => exact pure
    | succ bound => exact before (not_atJoin follows) pure
  | @more words words' first joins isJoin others ih =>
    have shorter := List.length_pos_iff.mpr isJoin.begins.ne_nil
    rw [List.length_append] at small enough
    obtain ⟨bound, rfl⟩ : ∃ smaller, bound = smaller + 1 := ⟨bound - 1, by omega⟩
    have between : Ahead (closing afterCondition) (words' ++ rest) := by
      cases others with
      | none => exact follows.closing_mono (by decide)
      | more next _ =>
        obtain ⟨lexeme, more, rfl, starts⟩ := next.begins
        rcases startsJoin_iff.mp starts with same | same | same <;>
        · exact .cons same rfl
    have there : Takes previous Parse.atJoin [] ((words ++ words') ++ rest) true := by
      rw [List.append_assoc]
      exact atJoin isJoin.begins
    refine before there (bind (join isJoin ?_ between) (all (ih ?_ ?_ bound ?_) pure))
    · intro previous words' rest inner holds small' member follows
      refine each _ _ _ _ holds (by omega) (known ?_) follows
      exact List.mem_filterMap.mpr ⟨first, List.mem_cons_self, member⟩
    · omega
    · intro inner member
      obtain ⟨join, listed, same⟩ := List.mem_filterMap.mp member
      exact known (List.mem_filterMap.mpr ⟨join, List.mem_cons_of_mem _ listed, same⟩)
    · omega

theorem query {query : Query} (isSelect : IsSelect rule words query)
    (each : ∀ previous words' rest inner, rule words' inner → words'.length < words.length →
      inner ∈ query.conditions → Ahead (closing afterCondition) rest →
      Takes previous condition words' rest inner)
    (follows : Ahead (closing []) rest) :
    Takes previous (Parse.query condition) words rest query := by
  cases isSelect with
  | @mk select words words₁ words₂ words₃ words₄ words₅ words₆ words₇ words₈ words₉ words₁₀ distinct
      items root joined filter having groupBy orderBy limit offset announced skips selected ranged
      related filtered grouped kept ordered limited skipped whole =>
    subst whole
    -- What may follow a clause is known from the last clause on.
    have after₉ : Ahead (closing [.offset]) (words₁₀ ++ rest) := by
      have behind : Ahead (closing [.offset]) ((words₁₀ ++ []) ++ rest) := skipped.follows follows
      rwa [List.append_nil] at behind
    have after₈ : Ahead (closing [.limit, .offset]) ((words₉ ++ words₁₀) ++ rest) :=
      limited.follows after₉
    have after₇ : Ahead (closing [.order, .limit, .offset])
        ((words₈ ++ (words₉ ++ words₁₀)) ++ rest) := ordered.follows after₈
    have after₆ : Ahead (closing [.having, .order, .limit, .offset])
        ((words₇ ++ (words₈ ++ (words₉ ++ words₁₀))) ++ rest) := kept.follows after₇
    have after₅ : Ahead (closing [.group, .having, .order, .limit, .offset])
        ((words₆ ++ (words₇ ++ (words₈ ++ (words₉ ++ words₁₀)))) ++ rest) := grouped.follows after₆
    have after₄ : Ahead (closing [.where, .group, .having, .order, .limit, .offset])
        ((words₅ ++ (words₆ ++ (words₇ ++ (words₈ ++ (words₉ ++ words₁₀))))) ++ rest) :=
      filtered.follows after₅
    cases ranged with
    | @mk start words₃ root begun isRange =>
      have noDistinct : Ahead (fun found => found ≠ .keyword .distinct)
          ((words₂ ++ (start :: words₃ ++ (words₄ ++ (words₅ ++ (words₆ ++ (words₇ ++
            (words₈ ++ (words₉ ++ words₁₀)))))))) ++ rest) := by
        rw [List.append_assoc]
        exact (selected.begins fun _ _ isItem => isItem.begins).other rfl
      have place : extent (select :: (words₁ ++ (words₂ ++ (start :: words₃ ++ (words₄ ++ (words₅ ++
          (words₆ ++ (words₇ ++ (words₈ ++ (words₉ ++ words₁₀)))))))))) =
          select.span.merge (lastPlace (lastPlace (lastPlace (lastPlace (lastPlace (lastPlace
            (lastPlace (lastPlace start.span words₃) words₄) words₅) words₆) words₇) words₈) words₉)
            words₁₀) := by
        rw [extent]
        simp only [lastPlace_append]
        rfl
      rw [place]
      refine expecting announced (optionally skips noDistinct (bind (separated selected
        (E := afterItem) rfl (fun _ _ _ _ isItem _ _ => selectItem isItem) ?_ ?_)
        (expecting begun (bind (range isRange) ?_))))
      · exact .cons begun rfl
      · exact .cons begun rfl
      simp only [List.length_cons, List.length_append] at each
      refine measured_bind (f := Parse.joins condition) (fun size enough => joins related
        (Nat.le_refl _) (List.Subset.refl _) ?_ after₄ size enough) ?_
      · intro previous words' rest inner holds small member follows
        exact each _ _ _ _ holds (by omega)
          (List.mem_append_left _ (List.mem_append_left _ member)) follows
      refine bind (clause filtered ?_ (after₅.ne_keyword (by decide))) (bind (byClause grouped
        (fun _ _ _ _ => expression) after₆ (by decide) rfl fun _ => endsExpr_of_closing)
        (bind (clause kept ?_ (after₇.ne_keyword (by decide))) (bind (byClause ordered
          (fun _ _ _ _ => orderItem) after₈ (by decide) rfl ?_)
          (bind (clause limited ?_ (after₉.ne_keyword (by decide)))
            (all (clause skipped ?_ (follows.ne_keyword (by decide))) (last pure))))))
      · intro previous words' inner holds small member
        exact each _ _ _ _ holds (by omega)
          (List.mem_append_left _ (List.mem_append_right _ (Option.mem_toList.mpr member)))
          (after₅.closing_mono (by decide))
      · intro previous words' inner holds small member
        exact each _ _ _ _ holds (by omega)
          (List.mem_append_right _ (Option.mem_toList.mpr member)) (after₇.closing_mono (by decide))
      · exact fun token holds => by rw [afterOrderItem, holds, Bool.or_true]
      · exact fun _ _ _ isCount _ _ => count isCount
      · exact fun _ _ _ isCount _ _ => count isCount

end

variable {limit : Nat}

/-- Each level of conditions inside each other is read at a smaller depth. -/
theorem condition (depth : Nat) {level : Nat} {predicate : Predicate}
    (isPredicate : IsPredicate words predicate) (enough : words.length < depth)
    (within : level + predicate.nesting ≤ limit) (follows : Ahead (closing afterCondition) rest) :
    Takes previous (Parse.condition limit depth level) words rest predicate := by
  induction depth generalizing previous words rest level predicate with
  | zero => exact absurd enough (Nat.not_lt_zero _)
  | succ depth ih =>
    have nested : ∀ previous words' rest inner, IsQuery words' inner → words'.length ≤ depth →
        level + (inner.nesting + 1) ≤ limit → Ahead (closing []) rest →
        Takes previous
          (subquery limit level (Parse.query (Parse.condition limit depth (level + 1))))
          words' rest inner := by
      intro previous words' rest inner isQuery small within follows
      rw [subquery, if_neg (by omega)]
      refine query isQuery (fun _ _ _ condition holds shorter member follows => ?_) follows
      have below := Query.nesting_le member
      exact ih holds (by omega) (by omega) follows
    refine disjunction isPredicate (fun _ _ _ _ isAtom small below follows => ?_) follows
    refine atom isAtom (fun _ _ _ _ holds shorter less follows => ?_)
      (fun _ _ _ _ holds shorter less follows => ?_) follows
    · exact ih holds (by omega) (by omega) follows
    · exact nested _ _ _ _ holds (by omega) (by omega) follows

theorem statement {query : Query} (isQuery : IsQuery words query)
    (within : query.nesting ≤ limit) :
    Takes previous (Parse.statement limit) words [] query := by
  refine measured (f := fun size => Parse.query (Parse.condition limit size 0))
    fun size enough => ?_
  refine Takes.query isQuery (fun _ _ _ inner holds shorter member follows => ?_) (.nil _)
  have below := Query.nesting_le member
  exact condition size holds (by omega) (by omega) follows

end Takes

end QueryGuard.Grammar
