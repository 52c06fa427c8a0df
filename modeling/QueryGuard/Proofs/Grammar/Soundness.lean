import QueryGuard.Proofs.Grammar.Deriving
import QueryGuard.Proofs.Trees
import QueryGuard.Syntax.Parser
/-!
What the parser accepts is derived by the grammar, within the limit on queries inside each other.
-/

set_option autoImplicit false

namespace QueryGuard.Grammar

open Parse

theorem isLiteral_of_constant? {lexeme : Lexeme} {value : Literal}
    (same : constant? lexeme.token = some value) : IsLiteral [lexeme] ⟨value, lexeme.span⟩ := by
  unfold constant? at same
  split at same
  · obtain rfl := Option.some.inj same
    exact .string ‹_›
  · obtain rfl := Option.some.inj same
    exact .integer ‹_›
  · obtain rfl := Option.some.inj same
    exact .decimal ‹_›
  · obtain rfl := Option.some.inj same
    exact .true ‹_›
  · obtain rfl := Option.some.inj same
    exact .false ‹_›
  · obtain rfl := Option.some.inj same
    exact .null ‹_›
  · cases same

theorem isLiteral_of_negated? {sign lexeme : Lexeme} {value : Literal}
    (minus : sign.token = .symbol .minus) (same : negated? lexeme.token = some value) :
    IsLiteral [sign, lexeme] ⟨value, sign.span.merge lexeme.span⟩ := by
  unfold negated? at same
  split at same
  · obtain rfl := Option.some.inj same
    exact .negativeInteger minus ‹_›
  · obtain rfl := Option.some.inj same
    exact .negativeDecimal minus ‹_›
  · cases same

theorem exists_symbol_of_comparison? {token : Token} {comparison : Comparison}
    (same : comparison? token = some comparison) :
    ∃ symbol, token = .symbol symbol ∧ symbol.spelling = comparison.spelling := by
  unfold comparison? at same
  split at same <;> first
    | (obtain rfl := Option.some.inj same; exact ⟨_, rfl, rfl⟩)
    | cases same

namespace Derives

variable {previous : Span} {rest : List Lexeme}

/-! ### Expressions -/

theorem pathFrom {root : Name} {words : List Lexeme} (first : IsIdentifier words root) :
    Derives previous rest (Parse.pathFrom root) fun words' => IsPath (words ++ words') :=
  ending (following fun _ _ => word) fun _ _ others => .mk first others

theorem negativeNumber {sign : Lexeme} (minus : sign.token = .symbol .minus) :
    Derives previous rest (Parse.negativeNumber sign.span) fun words => IsExpr (sign :: words) := by
  apply peek
  split
  · rename_i value same
    obtain ⟨token, ahead, same⟩ := Option.bind_eq_some_iff.mp same
    obtain ⟨lexeme, found, rfl⟩ := Option.map_eq_some_iff.mp ahead
    obtain ⟨left, rfl⟩ := List.head?_eq_some_iff.mp found
    refine here fun place first => skip (pure ?_)
    rw [first lexeme rfl]
    exact .literal (isLiteral_of_negated? minus same)
  · exact fail _ _

/-- Behind its arguments a call has been read; which ones it may have depends on the name. -/
theorem callOf {callee opening closing : Lexeme} {words words' : List Lexeme} {text : String}
    {distinct : Bool} {given : Option (List Expr)} (called : callee.token = .name text)
    (opened : opening.token = .symbol .openParen)
    (skips : Optionally (.keyword .distinct) words distinct)
    (inside : Maybe (Separated (.symbol .comma) IsExpr) words' given)
    (closed : closing.token = .symbol .closeParen) :
    Derives previous rest
      (Parse.callOf ⟨text, callee.span⟩ distinct (given.getD []) closing.span)
      fun last => IsExpr (callee :: opening :: (words ++ (words' ++ closing :: last))) := by
  unfold Parse.callOf
  dsimp only
  split
  · rename_i function known
    split
    · rename_i argument one
      cases inside with
      | absent => cases one
      | present chain =>
        obtain rfl : _ = [argument] := one
        exact pure (.aggregate called known opened skips chain.single closed)
    · exact throw _
  · rename_i custom
    cases skips with
    | present _ => exact throw _
    | absent => exact pure (.call called custom opened inside closed)

theorem arguments {step : Parse Expr} (callee opening : Lexeme) {text : String}
    (each : ∀ previous rest, Derives previous rest step IsExpr)
    (called : callee.token = .name text) (opened : opening.token = .symbol .openParen) :
    Derives previous rest (Parse.arguments step ⟨text, callee.span⟩)
      fun words => IsExpr (callee :: opening :: words) := by
  refine bind (optionally _) fun words left distinct _ skips => ?_
  have close : ∀ {previous rest words'} (given : Option (List Expr)),
      Maybe (Separated (.symbol .comma) IsExpr) words' given →
      Derives previous rest
        (closeParen >>= Parse.callOf ⟨text, callee.span⟩ distinct (given.getD []))
        fun last => IsExpr (callee :: opening :: (words ++ (words' ++ last))) :=
    fun _ inside => expecting fun _ _ _ closed => callOf called opened skips inside closed
  apply peek
  dsimp only
  split
  · exact close none .absent
  · exact bind (separated each) fun _ _ values _ chain => close (some values) (.present chain)

theorem expr (depth : Nat) : Derives previous rest (Parse.expr depth) IsExpr := by
  induction depth generalizing previous rest with
  | zero => exact fail _ _
  | succ depth ih =>
    intro finish value after result
    simp only [Parse.expr] at result
    split at result
    · rename_i text written span written' span' left
      have called : Derives span' left (Parse.arguments (Parse.expr depth) ⟨text, span⟩) _ :=
        arguments ⟨.name text, written, span⟩ ⟨.symbol .openParen, written', span'⟩
          (fun _ _ => ih) rfl rfl
      obtain ⟨words, left, rfl, rfl, holds⟩ := called finish value after result
      exact ⟨_ :: _ :: words, left, rfl, rfl, holds⟩
    · rename_i lexeme left _
      have path : ∀ name, IsIdentifier [lexeme] name →
          Derives lexeme.span left (Expr.path <$> Parse.pathFrom name)
            fun words => IsExpr (lexeme :: words) :=
        fun name first => map ((pathFrom first).mono fun _ _ holds => .path holds)
      split at result
      · exact behind (path _ (.plain ‹_›)) result
      · exact behind (path _ (.quoted ‹_›)) result
      · exact behind (pure (.parameter ‹_›)) result
      · exact behind (negativeNumber ‹_›) result
      · cases result
      · split at result
        · exact behind (pure (.literal (isLiteral_of_constant? ‹_›))) result
        · cases result
    · cases result

theorem expression : Derives previous rest Parse.expression IsExpr := measured (expr _)

/-! ### Conditions -/

theorem escapeCharacter : Derives previous rest Parse.escapeCharacter IsText := by
  intro finish value after result
  unfold Parse.escapeCharacter at result
  split at result
  · rename_i text written span left split
    obtain rfl : rest = ⟨.string text, written, span⟩ :: left := split
    exact behind (pure (IsText.mk rfl)) result
  · cases result

end Derives

/-- A condition that holds no more levels of queries than the limit allows at its level. -/
def Within (limit level : Nat) (rule : Rule Predicate) : Rule Predicate :=
  fun words predicate => rule words predicate ∧ level + predicate.nesting ≤ limit

/-- A query that a condition at the level may hold. -/
def Inside (limit level : Nat) : Rule Query :=
  fun words query => IsQuery words query ∧ level + (query.nesting + 1) ≤ limit

/-- Conditions within the limit, with a token between two. -/
theorem Within.chain {limit level : Nat} {separator : Token} {rule : Rule Predicate}
    {words : List Lexeme} {operands : List Predicate}
    (chain : Separated separator (Within limit level rule) words operands) :
    Separated separator rule words operands ∧
      ∀ operand ∈ operands, operand.nesting ≤ limit - level := by
  refine ⟨chain.mono fun _ _ holds => holds.1, fun operand member => ?_⟩
  obtain ⟨_, _, within⟩ := chain.each operand member
  omega

/-- A query whose conditions are within the limit. -/
theorem IsSelect.within {limit level : Nat} {words : List Lexeme} {query : Query}
    (isSelect : IsSelect (Within limit level IsPredicate) words query) (inside : level ≤ limit) :
    IsQuery words query ∧ level + query.nesting ≤ limit := by
  refine ⟨isSelect.mono fun _ _ holds => holds.1, ?_⟩
  have bounded : query.nesting ≤ limit - level := by
    rw [Query.nesting_eq]
    refine foldl_max_le (Nat.zero_le _) fun number found => ?_
    obtain ⟨condition, member, rfl⟩ := List.mem_map.mp found
    obtain ⟨_, _, within⟩ := isSelect.conditions condition member
    omega
  omega

namespace Derives

variable {previous : Span} {rest : List Lexeme} {limit level : Nat}

section

variable {query : Parse Query} {tested : Expr} {words words' : List Lexeme} {negated : Bool}

/-- A condition of an expression without queries inside. -/
theorem leaf {test : Test} {words words' : List Lexeme} (inside : level ≤ limit)
    (value : IsExpr words tested) (holds : IsTest tested words' test) :
    Within limit level IsAtom (words ++ words') (.test test) :=
  ⟨.test value holds, inside⟩

theorem inSource {member : Lexeme} (inside : level ≤ limit)
    (nested : ∀ previous rest, Derives previous rest query (Inside limit level))
    (value : IsExpr words tested) (opposite : Optionally (.keyword .not) words' negated)
    (announced : member.token = .keyword .in) :
    Derives previous rest (Parse.inSource query tested negated)
      fun last => Within limit level IsAtom (words ++ (words' ++ member :: last)) := by
  apply peek
  split
  · rename_i marker ahead
    obtain ⟨lexeme, found, same⟩ := Option.map_eq_some_iff.mp ahead
    obtain ⟨left, rfl⟩ := List.head?_eq_some_iff.mp found
    refine here fun place first => skip (pure ?_)
    rw [first lexeme rfl]
    exact leaf inside value (.inParameter opposite announced same)
  · refine expecting fun opening left _ opened => peek (ite (fun _ => ?_) fun _ => ?_)
    · exact bind (nested _ _) fun words'' _ found _ holds => expecting fun _ _ _ closed =>
        pure ⟨.inQuery value opposite announced (.mk opened holds.1 closed), holds.2⟩
    · exact bind (separated fun _ _ => expression) fun _ _ items _ chain =>
        expecting fun _ _ _ closed =>
          pure (leaf inside value (.inList opposite announced (.mk opened chain closed)))

theorem negatableTest (inside : level ≤ limit)
    (nested : ∀ previous rest, Derives previous rest query (Inside limit level))
    (value : IsExpr words tested) (opposite : Optionally (.keyword .not) words' negated) :
    Derives previous rest (Parse.negatableTest query tested negated)
      fun last => Within limit level IsAtom (words ++ (words' ++ last)) := by
  refine accept (fun member _ _ announced => inSource inside nested value opposite announced)
    fun _ => accept (fun between _ _ announced => ?_) fun _ =>
      accept (fun like _ _ announced => ?_) fun _ => fail _ _
  · exact bind expression fun _ _ low _ least => expecting fun and _ _ joined =>
      ending expression fun _ high most =>
        leaf inside value (.between opposite announced least joined most)
  · exact bind expression fun _ _ pattern _ matched =>
      ending (clause fun _ _ => escapeCharacter) fun _ escape escaped =>
        leaf inside value (.like opposite announced matched escaped)

theorem test (inside : level ≤ limit)
    (nested : ∀ previous rest, Derives previous rest query (Inside limit level))
    (value : IsExpr words tested) :
    Derives previous rest (Parse.test query tested)
      fun last => Within limit level IsAtom (words ++ last) := by
  apply peek
  split
  · rename_i comparison same
    obtain ⟨token, ahead, same⟩ := Option.bind_eq_some_iff.mp same
    obtain ⟨lexeme, found, rfl⟩ := Option.map_eq_some_iff.mp ahead
    obtain ⟨left, rfl⟩ := List.head?_eq_some_iff.mp found
    obtain ⟨symbol, written, compares⟩ := exists_symbol_of_comparison? same
    exact skip (ending expression fun _ right other =>
      leaf inside value (.compare written compares other))
  · refine accept (fun is _ _ announced => ?_) fun _ => ?_
    · exact bind (optionally _) fun _ _ negated _ opposite => expecting fun null _ _ same =>
        pure (leaf inside value (.isNull announced opposite same))
    · exact bind (optionally _) fun _ _ negated _ opposite =>
        negatableTest inside nested value opposite

end

section

variable {condition step : Parse Predicate} {query : Parse Query}

theorem atom (inside : level ≤ limit)
    (group : ∀ previous rest, Derives previous rest condition (Within limit level IsPredicate))
    (nested : ∀ previous rest, Derives previous rest query (Inside limit level)) :
    Derives previous rest (Parse.atom condition query) (Within limit level IsAtom) := by
  refine accept (fun opening _ _ opened => ?_) fun _ =>
    accept (fun lexeme _ _ announced => ?_) fun _ => ?_
  · exact bind (group _ _) fun _ _ inner _ holds => expecting fun closing _ _ closed =>
      pure ⟨.group (.mk opened holds.1 closed), holds.2⟩
  · exact expecting fun opening _ _ opened => bind (nested _ _) fun _ _ found _ holds =>
      expecting fun closing _ _ closed =>
        pure ⟨.existsIn announced (.mk opened holds.1 closed), holds.2⟩
  · exact bind expression fun _ _ tested _ value => test inside nested value

theorem negation
    (each : ∀ previous rest, Derives previous rest step (Within limit level IsAtom))
    (bound : Nat) :
    Derives previous rest (Parse.negation step bound) (Within limit level IsNegation) := by
  have affirmed : ∀ {previous rest},
      Derives previous rest step (Within limit level IsNegation) :=
    (each _ _).mono fun _ _ holds => ⟨.affirmed holds.1, holds.2⟩
  induction bound generalizing previous rest with
  | zero => exact affirmed
  | succ bound ih =>
    -- Behind NOT the next lexeme tells whether EXISTS takes the NOT to itself.
    refine accept (fun lexeme left _ not => peek (ite (fun ahead => ?_) fun ahead => ?_))
      fun _ => affirmed
    · refine bind (each _ _) fun words left' predicate split holds => pure ?_
      obtain ⟨first, more, rfl, _, starts⟩ := holds.1.starts
      rw [split] at ahead
      obtain ⟨query, rfl⟩ := starts.mp (Option.some.inj ahead)
      rw [List.append_nil]
      exact ⟨.negated not (.affirmed holds.1), holds.2⟩
    · refine bind ih fun words left' predicate split holds => pure ?_
      obtain ⟨first, more, rfl, starts⟩ := holds.1.starts
      rw [split] at ahead
      have other : ∀ query, predicate ≠ .existsIn query false :=
        fun query same => ahead (congrArg some (starts.mpr ⟨query, same⟩))
      rw [List.append_nil, ← opposite_of_ne other]
      refine ⟨.negated not holds.1, ?_⟩
      rw [opposite_of_ne other]
      exact holds.2

theorem disjunction (inside : level ≤ limit)
    (each : ∀ previous rest, Derives previous rest step (Within limit level IsAtom)) :
    Derives previous rest (Parse.disjunction step) (Within limit level IsPredicate) := by
  have conjunction : ∀ previous rest, Derives previous rest
      (Predicate.allOf <$> Parse.separated (.keyword .and)
        (do Parse.negation step (← get).rest.length)) (Within limit level IsConjunction) := by
    intro previous rest
    refine map ((separated fun _ _ => measured (negation each _)).mono
      fun words operands chain => ?_)
    obtain ⟨chain, within⟩ := Within.chain chain
    have nesting := Predicate.nesting_allOf_le within
    exact ⟨.mk chain, by omega⟩
  refine map ((separated conjunction).mono fun words operands chain => ?_)
  obtain ⟨chain, within⟩ := Within.chain chain
  have nesting := Predicate.nesting_anyOf_le within
  exact ⟨.mk chain, by omega⟩

end

/-! ### Queries -/

/-- The name of a range; where there is none, the error has a hint. -/
theorem rangeName : Derives previous rest (fun cursor =>
    match Parse.name .rangeAlias cursor with
    | .error (.unexpected expected found span _) =>
        .error (.unexpected expected found span (some .rangeAlias))
    | result => result) IsIdentifier := by
  intro finish value after result
  have reads : Derives previous rest (Parse.name .rangeAlias) IsIdentifier := name
  refine reads finish value after ?_
  revert result
  dsimp only
  split
  · intro result
    cases result
  · exact id

theorem range : Derives previous rest Parse.range IsRange :=
  bind word fun _ _ _ _ kind => bind (optionally _) fun _ _ _ _ as =>
    ending rangeName fun _ _ goesBy => .mk kind as goesBy

/-- The label of an item, with AS in front of it or without. -/
theorem labelled {words words' : List Lexeme} {expr : Expr} {there : Bool}
    (value : IsExpr words expr) (as : Optionally (.keyword .as) words' there) :
    Derives previous rest (do
      let label ← some <$> Parse.name .label
      Pure.pure (⟨expr, label, match label with
        | some label => expr.span.merge label.span
        | none => expr.span⟩ : SelectItem))
      fun last => IsSelectItem (words ++ (words' ++ last)) := by
  have named : Derives previous rest (some <$> Parse.name .label)
      fun words label => ∃ name, label = some name ∧ IsIdentifier words name :=
    map (name.mono fun _ name holds => ⟨name, rfl, holds⟩)
  refine ending named fun _ label found => ?_
  obtain ⟨_, rfl, holds⟩ := found
  exact .labelled value as holds

theorem selectItem : Derives previous rest Parse.selectItem IsSelectItem := by
  refine bind expression fun words _ expr _ value => ?_
  refine accept (fun _ _ _ same => ?_) fun _ => peek ?_
  · exact labelled value (.present same)
  · split
    · exact labelled value .absent
    · exact labelled value .absent
    · refine pure ?_
      rw [List.append_nil]
      exact .bare value

theorem joinKind : Derives previous rest Parse.joinKind IsJoinKind := by
  have announced : ∀ {previous rest kind} (words : List Lexeme),
      (∀ lexeme, lexeme.token = .keyword .join → IsJoinKind (words ++ [lexeme]) kind) →
      Derives previous rest (do
        let _ ← expectKeyword .join
        Pure.pure kind) fun last => IsJoinKind (words ++ last) :=
    fun _ holds => expecting fun lexeme _ _ same => pure (holds lexeme same)
  refine accept (fun left _ _ same => ?_) fun _ => ?_
  · exact bind (optionally _) fun words _ there _ outer =>
      announced (left :: words) fun lexeme join => .left same outer join
  · exact bind (optionally _) fun words _ there _ inner =>
      announced words fun lexeme join => .inner inner join

theorem orderItem : Derives previous rest Parse.orderItem IsOrderItem := by
  refine bind expression fun words _ expr _ value => accept (fun desc _ _ same => ?_) fun _ => ?_
  · exact last (pure (.descending value same))
  · refine bind (optionally _) fun words' _ there _ asc => last (pure ?_)
    rw [List.append_nil, ← lastPlace_append,
      lastPlace_congr (by simp [value.begins.ne_nil]) previous expr.span]
    exact .ascending value asc

theorem count (keyword : Keyword) : Derives previous rest (Parse.count keyword) IsCount := by
  intro finish value after result
  unfold Parse.count at result
  split at result
  · rename_i number written span left split
    obtain rfl : rest = ⟨.integer number, written, span⟩ :: left := split
    exact behind (pure (IsCount.mk rfl)) result
  · cases result

/-- A list that two reserved words announce; without them it is empty. -/
theorem byClause {α : Type} {keyword : Keyword} {step : Parse α} {item : Rule α}
    (each : ∀ previous rest, Derives previous rest step item) :
    Derives previous rest (Parse.byClause keyword step) fun words items =>
      ∃ list, items = list.getD [] ∧ Maybe (IsListBy keyword item) words list :=
  ending (clause fun _ _ => expecting fun _ _ _ same =>
    (separated each).mono fun _ _ chain => .mk same chain) fun _ list holds => ⟨list, rfl, holds⟩

theorem joinTarget : Derives previous rest Parse.joinTarget IsJoinTarget := by
  refine peek (bind word fun words left head split isWord =>
    peek (ite (fun along => ?_) fun _ => ?_))
  · simp only [Bool.and_eq_true, Bool.not_eq_true', decide_eq_true_eq] at along
    -- A reserved word with a dot behind it is no path: the parser has looked at the word before.
    have root : IsIdentifier words head := by
      cases isWord with
      | identifier holds => exact holds
      | reserved same => simp [split, same] at along
    have path : Derives (lastPlace previous words) left (Parse.pathFrom head)
        fun words' path => IsPath (words ++ words') path ∧ path.attributes ≠ [] :=
      ending (following_ne_nil (fun _ _ => word) along.2) fun _ _ others =>
        ⟨.mk root others.1, others.2⟩
    exact ending path fun _ _ holds => .path holds.1 holds.2
  · refine pure ?_
    rw [List.append_nil]
    exact .entity isWord

section

variable {condition : Parse Predicate} {rule : Rule Predicate}

theorem join (each : ∀ previous rest, Derives previous rest condition rule) :
    Derives previous rest (Parse.join condition) (IsJoin rule) := by
  refine here fun start first => bind joinKind fun words₁ _ kind split announced =>
    bind joinTarget fun words₂ _ target _ joined => bind (optionally _) fun words₃ _ there _ as =>
      bind name fun words₄ _ name _ goesBy => bind (clause each) fun words₅ _ on _ related => ?_
  have place : start.merge
      (lastPlace previous (words₁ ++ (words₂ ++ (words₃ ++ (words₄ ++ words₅))))) =
      extent (words₁ ++ (words₂ ++ (words₃ ++ (words₄ ++ words₅)))) := by
    obtain ⟨start, more, rfl⟩ := List.exists_cons_of_ne_nil announced.ne_nil
    exact (extent_eq previous (List.cons_ne_nil _ _) fun lexeme found =>
      first lexeme (by rw [split]; exact found)).symm
  split
  · exact fail _ _
  · rename_i complete
    refine last (pure ?_)
    simp only [List.append_nil, ← lastPlace_append, List.append_assoc, place]
    refine .mk announced joined as goesBy related (fun entity same => ?_) rfl
    exact Option.isSome_iff_ne_none.mpr (complete entity same)

theorem joins (each : ∀ previous rest, Derives previous rest condition rule) (bound : Nat) :
    Derives previous rest (Parse.joins condition bound) (Repeated (IsJoin rule)) := by
  induction bound generalizing previous rest with
  | zero => exact pure .none
  | succ bound ih =>
    have there : Derives previous rest atJoin fun words _ => words = [] :=
      peek (by split <;> exact pure rfl)
    refine bind there fun _ left there _ empty => ?_
    subst empty
    change Derives previous left _ (Repeated (IsJoin rule))
    refine ite (fun _ => ?_) fun _ => pure .none
    exact bind (join each) fun words _ join _ first =>
      ending ih fun words' joins others => .more first others

theorem query (each : ∀ previous rest, Derives previous rest condition rule) :
    Derives previous rest (Parse.query condition) (IsSelect rule) := by
  refine expecting fun select _ _ announced => bind (optionally _) fun _ _ distinct _ skips =>
    bind (separated fun _ _ => selectItem) fun _ _ items _ selected =>
    expecting fun start _ _ begun => bind range fun _ _ root _ isRange =>
    measured_bind (f := Parse.joins condition) (bind (joins each _) fun _ _ joins _ joined =>
    bind (clause each) fun _ _ filter _ filtered =>
    bind (byClause fun _ _ => expression) fun _ _ groups _ grouped =>
    bind (clause each) fun _ _ having _ kept =>
    bind (byClause fun _ _ => orderItem) fun _ _ orders _ ordered =>
    bind (clause fun _ _ => count _) fun _ _ limit _ limited =>
    bind (clause fun _ _ => count _) fun _ _ offset _ skipped => last (pure ?_))
  obtain ⟨groupBy, rfl, grouped⟩ := grouped
  obtain ⟨orderBy, rfl, ordered⟩ := ordered
  have isSelect := IsSelect.mk announced skips selected (.mk begun isRange) joined filtered grouped
    kept ordered limited skipped rfl
  simp only [extent, lastPlace_append] at isSelect
  rw [List.append_nil]
  exact isSelect

end

/-- A query inside is read at the next level only if the limit allows it there. -/
theorem condition (depth : Nat) (inside : level ≤ limit) :
    Derives previous rest (Parse.condition limit depth level) (Within limit level IsPredicate) := by
  induction depth generalizing previous rest level with
  | zero => exact fail _ _
  | succ depth ih =>
    have nested : ∀ previous rest, Derives previous rest
        (subquery limit level (Parse.query (Parse.condition limit depth (level + 1))))
        (Inside limit level) := by
      intro previous rest
      refine ite (fun _ => here fun _ _ => throw _) fun below => ?_
      refine (query fun _ _ => ih (by omega)).mono fun words query isSelect => ?_
      obtain ⟨isQuery, within⟩ := isSelect.within (by omega)
      exact ⟨isQuery, by omega⟩
    exact disjunction inside fun _ _ => atom inside (fun _ _ => ih inside) nested

theorem statement : Derives previous rest (Parse.statement limit)
    fun words query => IsQuery words query ∧ query.nesting ≤ limit := by
  refine measured (f := fun size => Parse.query (Parse.condition limit size 0))
    ((query fun _ _ => condition _ (Nat.zero_le limit)).mono fun words query holds => ?_)
  obtain ⟨isQuery, within⟩ := holds.within (Nat.zero_le limit)
  exact ⟨isQuery, by omega⟩

end Derives

end QueryGuard.Grammar
