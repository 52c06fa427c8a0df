import QueryGuard.Proofs.Reading.Parsed
/-!
What the parser returns for conditions and queries. Printing a parsed query and parsing it again changes
nothing but the places.
-/

set_option autoImplicit false

namespace QueryGuard

open Lexing Parse

/-- A condition on an expression. -/
structure ParsedLeaf (limit level : Nat) (predicate : Predicate) : Prop extends
    ParsedUnary limit level predicate where
  noExists : ∀ query negated, predicate ≠ .existsIn query negated

/-- A condition without NOT in front of it. -/
structure ParsedAtom (limit level : Nat) (predicate : Predicate) : Prop extends
    ParsedUnary limit level predicate where
  affirmed : ∀ query, predicate ≠ .existsIn query true

/-- All clauses but the conditions can be written down, unless they hold numbers that cannot. -/
structure Select.LevelParsed {Condition : Type} (query : Select Condition) : Prop where
  nonempty : query.items ≠ []
  items : ∀ item ∈ query.items, item.expr.Parsed
  joins : ∀ join ∈ query.joins, join.Printable
  groupBy : ∀ expr ∈ query.groupBy, expr.Parsed
  orderBy : ∀ item ∈ query.orderBy, item.expr.Parsed
  limit : ∀ count ∈ query.limit, count.value ≤ Lexing.largestInteger
  offset : ∀ count ∈ query.offset, count.value ≤ Lexing.largestInteger

theorem Select.LevelParsed.printable {Condition : Type} {query : Select Condition}
    (parsed : query.LevelParsed) (finite : AllFinite query.levelDecimals) :
    query.LevelPrintable where
  nonempty := parsed.nonempty
  items := fun item found => parsed.items item found (finite.mono fun _ number =>
    List.mem_append_left _ (List.mem_append_left _ (List.mem_flatMap.mpr ⟨item, found, number⟩)))
  joins := parsed.joins
  groupBy := Expr.Parsed.all parsed.groupBy (finite.mono fun _ number =>
    List.mem_append_left _ (List.mem_append_right _ number))
  orderBy := fun item found => parsed.orderBy item found (finite.mono fun _ number =>
    List.mem_append_right _ (List.mem_flatMap.mpr ⟨item, found, number⟩))
  limit := parsed.limit
  offset := parsed.offset

theorem parsed_query {limit level : Nat} {query : Query} (inside : level ≤ limit)
    (parsed : query.LevelParsed)
    (each : ∀ condition ∈ query.conditions, ParsedCondition limit level condition) :
    query.Parsed limit level where
  printable := fun finite => by
    rw [Query.decimals_eq] at finite
    exact ⟨parsed.printable (finite.mono (List.subset_append_left _ _)), fun condition found =>
      (each condition found).printable (finite.mono fun _ number =>
        List.mem_append_right _ (List.mem_flatMap.mpr ⟨condition, found, number⟩))⟩
  within := by
    have below : query.nesting ≤ limit - level := by
      rw [Query.nesting_eq]
      apply foldl_max_le (Nat.zero_le _)
      intro number found
      obtain ⟨condition, member, rfl⟩ := List.mem_map.mp found
      have within := (each condition member).within
      omega
    omega
  reread := Select.map_eq_self fun condition found => (each condition found).reread

namespace Parse.Yields

variable {S : Option Token → Prop} {limit level : Nat}

section

variable {query : Parse Query} {tested : Expr}

theorem leaf {test : Test} (inside : level ≤ limit) (exprs : ∀ expr ∈ test.exprs, expr.Parsed)
    (shape : test.Shaped) : Yields S (Pure.pure (Predicate.test test)) (ParsedLeaf limit level) :=
  pure ⟨parsed_test inside exprs shape, fun _ _ => Predicate.noConfusion⟩

theorem inSource (inside : level ≤ limit)
    (nested : Yields anywhere query (Query.Parsed limit (level + 1))) (parsed : tested.Parsed)
    (negated : Bool) :
    Yields S (Parse.inSource query tested negated) (ParsedLeaf limit level) := by
  intro cursor value after sound ahead result
  have marker : ∀ name, cursor.token? = some (.parameter name) → IsMarker name.toList := by
    intro name found
    obtain ⟨lexeme, first, same⟩ := Option.map_eq_some_iff.mp found
    have sound := sound lexeme (List.mem_of_mem_head? first)
    rwa [same] at sound
  refine peek (S := fun token => token = cursor.token?) ?_ cursor value after sound rfl result
  rintro _ rfl
  split
  · rename_i name found
    refine here fun span => bind (P := fun _ => True) skip fun _ _ => leaf inside ?_ ?_
    · intro expr member
      rw [List.mem_singleton.mp member]
      exact parsed
    · exact marker name found
  · refine expecting fun _ => peek fun token _ => ?_
    split
    · exact bind nested.of_anywhere fun inner holds => expecting fun _ => pure
        ⟨parsed_inQuery parsed holds negated, fun _ _ => Predicate.noConfusion⟩
    · refine bind (separated expression) fun items holds => expecting fun _ => leaf inside ?_ holds.1
      intro expr member
      rcases List.mem_cons.mp member with rfl | member
      · exact parsed
      · exact holds.2 expr member

theorem negatableTest (inside : level ≤ limit)
    (nested : Yields anywhere query (Query.Parsed limit (level + 1))) (parsed : tested.Parsed)
    (negated : Bool) :
    Yields S (Parse.negatableTest query tested negated) (ParsedLeaf limit level) := by
  refine accept (fun _ => inSource inside nested parsed negated) ?_
  refine accept (fun _ => ?_) (accept (fun _ => ?_) (fail _ _))
  · refine bind expression fun low holdsLow => expecting fun _ =>
      bind expression fun high holdsHigh => leaf inside ?_ trivial
    intro expr member
    simp only [Test.exprs, List.mem_cons, List.not_mem_nil, or_false] at member
    rcases member with rfl | rfl | rfl
    · exact parsed
    · exact holdsLow
    · exact holdsHigh
  · have escape : Yields anywhere escapeCharacter fun _ => True := by
      intro cursor value after sound _ result
      unfold escapeCharacter at result
      split at result
      · obtain ⟨_, rfl⟩ := Prod.mk.inj (Except.ok.inj result)
        exact ⟨sound_next sound, trivial⟩
      · cases result
    refine bind expression fun pattern holds => bind (clause escape) fun _ _ => leaf inside ?_ trivial
    intro expr member
    simp only [Test.exprs, List.mem_cons, List.not_mem_nil, or_false] at member
    rcases member with rfl | rfl
    · exact parsed
    · exact holds

theorem test (inside : level ≤ limit)
    (nested : Yields anywhere query (Query.Parsed limit (level + 1))) (parsed : tested.Parsed) :
    Yields S (Parse.test query tested) (ParsedLeaf limit level) := by
  apply peek
  intro token _
  split
  · refine bind (P := fun _ => True) skip fun _ _ => bind expression fun right holds =>
      leaf inside ?_ trivial
    intro expr member
    simp only [Test.exprs, List.mem_cons, List.not_mem_nil, or_false] at member
    rcases member with rfl | rfl
    · exact parsed
    · exact holds
  · refine accept (fun _ => ?_) (accept (fun _ => negatableTest inside nested parsed true)
      (negatableTest inside nested parsed false))
    have isNull : ∀ negated, Yields anywhere (do
        let _ ← expectKeyword .null
        return Predicate.test (.isNull tested negated)) (ParsedLeaf limit level) := by
      intro negated
      refine expecting fun _ => leaf inside ?_ trivial
      intro expr member
      rw [List.mem_singleton.mp member]
      exact parsed
    exact accept (fun _ => isNull true) (isNull false).of_anywhere

end

section

variable {condition : Parse Predicate} {query : Parse Query}

/-- Only EXISTS starts with that word. -/
theorem atom (inside : level ≤ limit)
    (group : Yields anywhere condition (ParsedCondition limit level))
    (nested : Yields anywhere query (Query.Parsed limit (level + 1))) :
    Yields S (Parse.atom condition query) fun found => ParsedAtom limit level found ∧
      (¬ S (some (.keyword .exists)) → ∀ query, found ≠ .existsIn query false) := by
  refine accept (fun _ => ?_) (accept (fun ahead => ?_) ?_)
  · exact bind group fun inner holds => expecting fun _ =>
      pure ⟨⟨parsed_group holds, fun _ => Predicate.noConfusion⟩,
        fun _ _ => Predicate.noConfusion⟩
  · refine expecting fun _ => bind nested fun inner holds => expecting fun _ =>
      pure ⟨⟨parsed_existsIn holds false, fun _ same => ?_⟩, fun other => absurd ahead.1 other⟩
    injection same with _ same
    contradiction
  · exact bind expression fun tested parsed => (test inside nested parsed).mono fun _ holds =>
      ⟨⟨holds.toParsedUnary, fun _ => holds.noExists _ true⟩, fun _ _ => holds.noExists _ false⟩

end

end Parse.Yields

/-- The opposite of an atom. -/
theorem parsed_opposite {limit level : Nat} {predicate : Predicate}
    (parsed : ParsedAtom limit level predicate) :
    ParsedUnary limit level (opposite predicate) ∧
      ∀ query, opposite predicate ≠ .existsIn query false := by
  have negated : (∀ query, predicate ≠ .existsIn query false) →
      ParsedUnary limit level predicate.not ∧ ∀ query, predicate.not ≠ .existsIn query false :=
    fun other => ⟨parsed_not parsed.toParsedUnary other, fun _ => Predicate.noConfusion⟩
  cases predicate with
  | existsIn query written =>
    cases written with
    | true => exact absurd rfl (parsed.affirmed query)
    | false =>
      refine ⟨⟨⟨fun finite => ?_, parsed.within⟩, ?_⟩, fun _ same => ?_⟩
      · cases parsed.printable finite with
        | existsIn level each => exact .existsIn level each
      · have reread := parsed.reading
        rw [Predicate.reading_existsIn] at reread
        simp only [List.cons.injEq, Predicate.existsIn.injEq, and_true] at reread
        rw [opposite, Predicate.reading_existsIn, reread]
      · injection same with _ same
        contradiction
  | and operands => exact negated fun _ => Predicate.noConfusion
  | or operands => exact negated fun _ => Predicate.noConfusion
  | not operand => exact negated fun _ => Predicate.noConfusion
  | group operand => exact negated fun _ => Predicate.noConfusion
  | test test => exact negated fun _ => Predicate.noConfusion
  | inQuery tested query negated' => exact negated fun _ => Predicate.noConfusion

namespace Parse.Yields

variable {limit level : Nat}

theorem negation {atom : Parse Predicate}
    (each : ∀ {S : Option Token → Prop}, Yields S atom fun found =>
      ParsedAtom limit level found ∧
        (¬ S (some (.keyword .exists)) → ∀ query, found ≠ .existsIn query false))
    (bound : Nat) {S : Option Token → Prop} :
    Yields S (Parse.negation atom bound) fun found => ParsedUnary limit level found ∧
      (¬ S (some (.keyword .exists)) → ∀ query, found ≠ .existsIn query false) := by
  induction bound generalizing S with
  | zero => exact each.mono fun _ holds => ⟨holds.1.toParsedUnary, holds.2⟩
  | succ bound ih =>
    refine accept (fun _ => peek fun token _ => ?_) ?_
    · split
      · exact map (each.mono fun found holds =>
          ⟨(parsed_opposite holds.1).1, fun _ => (parsed_opposite holds.1).2⟩)
      · rename_i other
        exact map (ih.mono fun found holds => ⟨parsed_not holds.1 (holds.2 (Ne.symm other)),
          fun _ _ => Predicate.noConfusion⟩)
    · exact each.mono fun _ holds => ⟨holds.1.toParsedUnary, fun other =>
        holds.2 fun ahead => other ahead.1⟩

theorem disjunction {atom : Parse Predicate}
    (each : ∀ {S : Option Token → Prop}, Yields S atom fun found =>
      ParsedAtom limit level found ∧
        (¬ S (some (.keyword .exists)) → ∀ query, found ≠ .existsIn query false)) :
    Yields anywhere (Parse.disjunction atom) (ParsedCondition limit level) := by
  have unary : Yields anywhere (do Parse.negation atom (← get).rest.length)
      (ParsedUnary limit level) :=
    measured fun size => (negation each size).mono fun _ holds => holds.1
  have conjunction := map (f := Predicate.allOf) (Q := ParsedConjunction limit level)
    ((separated unary : Yields anywhere (Parse.separated (.keyword .and) _) _).mono
      fun _ holds => parsed_allOf holds.1 holds.2)
  exact map ((separated conjunction).mono fun _ holds => parsed_anyOf holds.1 holds.2)

/-! ### Queries -/

variable {S : Option Token → Prop}

theorem range : Yields S Parse.range fun _ => True := by
  refine bind word fun entity _ => bind accept_any fun _ _ => bind (P := fun _ => True) ?_ fun _ _ => pure trivial
  intro cursor value after sound _ result
  have named : Parse.name .rangeAlias cursor = .ok (value, after) := by
    revert result
    dsimp only
    split
    · intro result
      cases result
    · exact id
  exact name (S := anywhere) cursor value after sound trivial named

theorem selectItem : Yields S Parse.selectItem fun item => item.expr.Parsed := by
  apply bind expression
  intro expr parsed
  have rest : ∀ label span, Yields anywhere (Pure.pure ⟨expr, label, span⟩ : Parse SelectItem)
      fun item : SelectItem => item.expr.Parsed := fun _ _ => pure parsed
  have labelled : ∀ {S : Option Token → Prop}, Yields S
      (some <$> Parse.name .label) fun _ => True := map (name.mono fun _ _ => trivial)
  refine accept (fun _ => bind labelled fun label _ => rest label _) (peek fun token _ => ?_)
  split
  · exact bind labelled fun label _ => rest label _
  · exact bind labelled fun label _ => rest label _
  · exact bind (P := fun _ => True) (pure trivial) fun label _ => rest label _

theorem orderItem : Yields S Parse.orderItem fun item => item.expr.Parsed := by
  refine bind expression fun expr parsed => accept (fun _ => ?_) ?_
  · exact last fun _ => pure parsed
  · apply bind accept_any
    intro _ _
    exact last fun _ => pure parsed

theorem count (keyword : Keyword) :
    Yields S (Parse.count keyword) fun count => count.value ≤ largestInteger := by
  intro cursor value after sound _ result
  unfold Parse.count at result
  split at result
  · rename_i number written span rest left
    obtain ⟨rfl, rfl⟩ := Prod.mk.inj (Except.ok.inj result)
    exact ⟨sound_next sound, sound ⟨.integer number, written, span⟩ (by simp [left])⟩
  · cases result

theorem byClause {α : Type} {keyword : Keyword} {item : Parse α} {good : α → Prop}
    (each : Yields anywhere item good) :
    Yields S (Parse.byClause keyword item) fun list => ∀ value ∈ list, good value := by
  refine bind (clause (expecting fun _ => separated each)) fun list holds => pure ?_
  cases list with
  | none => simp
  | some items => exact (holds items rfl).2

/-- A separator that is there is read with an item behind it. -/
theorem following_ne_nil {α : Type} {separator : Token} {item : Parse α}
    (each : Yields anywhere item fun _ => True) :
    Yields (· = some separator) (following separator item) (· ≠ []) := by
  intro cursor value after sound ahead result
  change Parse.more separator item cursor.rest.length cursor = _ at result
  cases left : cursor.rest with
  | nil => simp [Cursor.token?, left] at ahead
  | cons lexeme rest =>
    rw [left, List.length_cons] at result
    have yields : Yields (· = some separator) (Parse.more separator item (rest.length + 1))
        (· ≠ []) :=
      accept (fun _ => bind each fun first _ => bind (more each rest.length) fun others _ =>
        pure (List.cons_ne_nil first others)) fun _ _ _ _ other _ => absurd other.1 other.2
    exact yields cursor value after sound ahead result

theorem joinTarget :
    Yields S Parse.joinTarget fun target =>
      ∀ path, target = .path path → path.attributes ≠ [] := by
  refine peek fun token _ => bind word fun head _ => peek fun next _ => ite ?_ ?_
  · intro along
    have dot : next = some (.symbol .dot) := by
      simp only [Bool.and_eq_true, decide_eq_true_eq] at along
      exact along.2
    subst dot
    have path : Yields (· = some (.symbol .dot)) (Parse.pathFrom head) (·.attributes ≠ []) :=
      bind (following_ne_nil word) fun _ nonempty => pure nonempty
    refine bind path fun path nonempty => pure fun other same => ?_
    obtain rfl := JoinTarget.path.inj same
    exact nonempty
  · intro _
    exact pure fun _ same => JoinTarget.noConfusion same

theorem joinKind : Yields S Parse.joinKind fun _ => True := by
  have rest : ∀ kind, Yields anywhere (do
      let _ ← expectKeyword .join
      return kind) fun _ : JoinKind => True := fun _ => expecting fun _ => pure trivial
  refine accept (fun _ => ?_) ?_
  · exact accept (fun _ => bind (P := fun _ => True) (pure trivial) fun kind _ => rest kind)
      (bind (P := fun _ => True) (pure trivial) fun kind _ => rest kind)
  · exact accept (fun _ => bind (P := fun _ => True) (pure trivial) fun kind _ => rest kind)
      (bind (P := fun _ => True) (pure trivial) fun kind _ => rest kind)

theorem join {condition : Parse Predicate} {good : Predicate → Prop}
    (each : Yields anywhere condition good) :
    Yields S (Parse.join condition) fun join =>
      join.Printable ∧ ∀ condition ∈ join.condition, good condition := by
  refine here fun start => bind joinKind fun kind _ => bind joinTarget fun target along => ?_
  apply bind accept_any
  intro _ _
  refine bind name fun label _ => bind (clause each) fun found holds => ?_
  split
  · exact fail _ _
  · rename_i complete
    refine last fun stop => pure ⟨?_, holds⟩
    cases target with
    | path path => exact along path rfl
    | entity entity =>
      cases found with
      | none => exact absurd rfl (complete entity rfl)
      | some condition => exact rfl

theorem joins {condition : Parse Predicate} {good : Predicate → Prop}
    (each : Yields anywhere condition good) (bound : Nat) :
    Yields S (Parse.joins condition bound) fun joins =>
      ∀ join ∈ joins, join.Printable ∧ ∀ condition ∈ join.condition, good condition := by
  induction bound generalizing S with
  | zero => exact pure (by simp)
  | succ bound ih =>
    have there : Yields S atJoin fun _ => True := peek fun token _ => by
      split <;> exact pure trivial
    apply bind there
    intro found _
    split
    · refine bind (join each) fun first holds => bind ih fun others hold => pure ?_
      intro join found
      rcases List.mem_cons.mp found with rfl | found
      · exact holds
      · exact hold join found
    · exact pure (by simp)

theorem query {condition : Parse Predicate} (inside : level ≤ limit)
    (each : Yields anywhere condition (ParsedCondition limit level)) :
    Yields S (Parse.query condition) (Query.Parsed limit level) := by
  rw [Parse.query]
  apply expecting
  intro start
  apply bind accept_any
  intro distinct _
  refine bind (separated selectItem) fun items holdsItems => expecting fun _ => ?_
  apply bind range
  intro root _
  apply measured_bind (f := Parse.joins condition) (joins each)
  intro joins holdsJoins
  apply bind (clause each)
  intro filter holdsFilter
  apply bind (byClause expression)
  intro groups holdsGroups
  apply bind (clause each)
  intro having holdsHaving
  apply bind (byClause orderItem)
  intro orders holdsOrders
  apply bind (clause (count .limit))
  intro limits holdsLimit
  refine bind (clause (count .offset)) fun offsets holdsOffset => last fun stop => pure ?_
  refine parsed_query inside ⟨holdsItems.1, holdsItems.2, fun join found =>
    (holdsJoins join found).1, holdsGroups, holdsOrders, holdsLimit, holdsOffset⟩ ?_
  intro condition found
  simp only [Select.conditions, List.mem_append, List.mem_filterMap, Option.mem_toList] at found
  rcases found with (⟨join, member, same⟩ | found) | found
  · exact (holdsJoins join member).2 condition same
  · exact holdsFilter condition found
  · exact holdsHaving condition found

/-- What is read as a condition at a level within the limit. -/
theorem condition (depth : Nat) : ∀ {level : Nat}, level ≤ limit →
    Yields anywhere (Parse.condition limit depth level) (ParsedCondition limit level) := by
  induction depth with
  | zero => exact fun _ => fail _ _
  | succ depth ih =>
    intro level inside
    change Yields anywhere (Parse.disjunction (atomAt limit depth level)) _
    have nested : Yields anywhere
        (subquery limit level (Parse.query (Parse.condition limit depth (level + 1))))
        (Query.Parsed limit (level + 1)) := by
      unfold subquery
      split
      · exact here fun _ => throw _
      · rename_i below
        exact query (by omega) (ih (by omega))
    exact disjunction (atom inside (ih inside) nested)

theorem statement : Yields anywhere (Parse.statement limit) (Query.Parsed limit 0) :=
  measured fun size => query (Nat.zero_le limit) (condition size (Nat.zero_le limit))

end Parse.Yields

/-- What a text is parsed to can be written down, unless it holds a number that cannot. -/
theorem Query.parsed_of_parse {source : String} {depth : Nat} {query : Query}
    (result : Query.parse source depth = .ok query) : query.Parsed depth 0 :=
  Parse.Yields.statement.run result

/-! ### Reading again -/

/-- The text of a parsed query is parsed at the same depth to the same tree up to spans, if all
numbers in it are finite. -/
theorem Query.text_reparses {source : String} {depth : Nat} {query : Query}
    (parsed : Query.parse source depth = .ok query)
    (finite : ∀ x ∈ query.decimals, x.IsFinite) :
    ∃ reread, Query.parse query.text depth = .ok reread ∧ reread.unplaced = query.unplaced := by
  have written := Query.parsed_of_parse parsed
  have within : query.nesting ≤ depth := by
    have below := written.within
    omega
  obtain ⟨reread, result, same⟩ :=
    (written.printable finite).parse_text within
  rw [written.reread] at same
  exact ⟨reread, result, same⟩

/-- Quoted names, a negative number and NOT EXISTS are read back. -/
theorem Query.text_reparses_nested :
    ∃ query,
      Query.parse
        "select c.\"from\" from Customer c where c.total > -1.5 and not exists (select o from \"\" o)"
        1 = .ok query ∧
      (∀ x ∈ query.decimals, x.IsFinite) ∧
      ∃ reread, Query.parse query.text 1 = .ok reread ∧ reread.unplaced = query.unplaced := by
  have read : (Query.parse
      "select c.\"from\" from Customer c where c.total > -1.5 and not exists (select o from \"\" o)"
      1).toOption.any (fun query => decide (∀ x ∈ query.decimals, x.IsFinite)) := by
    decide +kernel
  cases parsed : Query.parse
      "select c.\"from\" from Customer c where c.total > -1.5 and not exists (select o from \"\" o)"
      1 with
  | error error =>
    rw [parsed] at read
    contradiction
  | ok query =>
    rw [parsed] at read
    have finite : ∀ x ∈ query.decimals, x.IsFinite := of_decide_eq_true read
    exact ⟨query, rfl, finite, Query.text_reparses parsed finite⟩

end QueryGuard
