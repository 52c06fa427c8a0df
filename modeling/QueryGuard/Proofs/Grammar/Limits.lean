import Mathlib.Logic.Basic
import QueryGuard.Proofs.Grammar.Deciding
import QueryGuard.Proofs.Places.Nesting
/-!
The limit on queries inside each other is exact: what is within it is read as under any other
limit, and what goes beyond it fails at the first query that is too deep.

Two runs of the parser are compared that differ in their limits only. Wherever the one with the
higher limit comes to an end, the other one has come there too, or has stopped at the first of the
queries that are too deep for it.
-/

set_option autoImplicit false

namespace QueryGuard

/-- The queries that are as many levels inside a query, in the order of the text. -/
def Query.queriesAt : Nat → Query → List Query
  | 0, query => [query]
  | level + 1, query => query.subqueries.flatMap (queriesAt level)

/-- What the queries inside a condition have of each kind. -/
def Predicate.inside (list : Query → List Query) (predicate : Predicate) : List Query :=
  predicate.subqueries.flatMap list

/-- The queries inside a query are inside its joins, WHERE and HAVING. -/
theorem Query.flatMap_subqueries (list : Query → List Query) (query : Query) :
    query.subqueries.flatMap list =
      (query.joins.flatMap fun join => join.condition.toList.flatMap (Predicate.inside list)) ++
        (query.filter.toList.flatMap (Predicate.inside list) ++
          query.having.toList.flatMap (Predicate.inside list)) := by
  rw [subqueries, List.flatMap_assoc, ← List.append_assoc]
  exact Select.flatMap_conditions (Predicate.inside list) query

namespace Predicate

variable (list : Query → List Query)

theorem inside_allOf (operands : List Predicate) :
    (allOf operands).inside list = operands.flatMap (inside list) :=
  flatMap_allOf (fun operands => by rw [inside, subqueries_and, List.flatMap_assoc]; rfl) operands

theorem inside_anyOf (operands : List Predicate) :
    (anyOf operands).inside list = operands.flatMap (inside list) :=
  flatMap_anyOf (fun operands => by rw [inside, subqueries_or, List.flatMap_assoc]; rfl) operands

theorem inside_opposite (predicate : Predicate) :
    (Parse.opposite predicate).inside list = predicate.inside list := by
  unfold Parse.opposite
  split <;> rfl

end Predicate

open Grammar

namespace Parse

/-- Where the run with the higher limit has read a value, the other one has read the same if there
are no queries too deep for it, and else has failed at the first one. -/
inductive Cuts {α : Type} (limit : Nat) (rest : List Lexeme) (read : α × Cursor) :
    List Query → Except SyntaxError (α × Cursor) → Prop where
  | none : Cuts limit rest read [] (.ok read)
  | first {words : List Lexeme} {select : Lexeme} {inner : Query} {others : List Query}
      (inside : words <:+: rest) (isQuery : Grammar.IsQuery words inner)
      (starts : words.head? = some select) :
      Cuts limit rest read (inner :: others) (.error (.tooDeep limit select.span))

/-- The first step has the lower limit, the second one the higher; what is read is told to hold some
queries that are too deep. -/
def Limited {α : Type} (limit : Nat) (deep : α → List Query → Prop) (step step' : Parse α) : Prop :=
  ∀ cursor value after, step' cursor = .ok (value, after) → after.rest <:+ cursor.rest ∧
    ∃ found, deep value found ∧ Cuts limit cursor.rest (value, after) found (step cursor)

/-- The queries are all that the list has for a value. -/
abbrev All {α : Type} (list : α → List Query) (value : α) (found : List Query) : Prop :=
  list value = found

namespace Limited

variable {α β : Type} {limit : Nat} {deep : α → List Query → Prop} {step step' : Parse α}

/-! ### Steps in general -/

/-- A step that reads no queries does not depend on the limit. -/
theorem plain {rule : Rule α} (reads : ∀ previous rest, Derives previous rest step rule)
    (flat : ∀ words value, rule words value → deep value []) : Limited limit deep step step := by
  rintro ⟨previous, rest, finish⟩ value after result
  obtain ⟨words, left, rfl, rfl, holds⟩ := reads previous rest finish value after result
  refine ⟨List.suffix_append words left, [], flat words value holds, ?_⟩
  rw [result]
  exact .none

theorem pure {value : α} (flat : deep value []) : Limited limit deep (pure value) (pure value) := by
  have reads : ∀ previous rest,
      Derives previous rest (Pure.pure value) fun _ found => found = value :=
    fun _ _ => Derives.pure rfl
  exact plain reads fun _ _ same => same ▸ flat

theorem bind {next next' : α → Parse β} {deep' : β → List Query → Prop}
    (first : Limited limit deep step step')
    (second : ∀ value found, deep value found →
      Limited limit (fun result found' => deep' result (found ++ found')) (next value)
        (next' value)) :
    Limited limit deep' (step >>= next) (step' >>= next') := by
  intro cursor value after result
  change (step' cursor >>= fun (value, cursor) => next' value cursor) = _ at result
  change _ ∧ ∃ found, _ ∧ Cuts _ _ _ _ (step cursor >>= fun (value, cursor) => next value cursor)
  cases between : step' cursor with
  | error error =>
    rw [between] at result
    cases result
  | ok reading =>
    obtain ⟨middle, left⟩ := reading
    rw [between] at result
    obtain ⟨further, found, before, cuts⟩ := first cursor middle left between
    obtain ⟨further', found', behind, cuts'⟩ := second middle found before left value after result
    refine ⟨further'.trans further, found ++ found', behind, ?_⟩
    generalize step cursor = outcome at cuts
    cases cuts with
    | none =>
      change Cuts limit cursor.rest (value, after) found' (next middle left)
      generalize next middle left = outcome at cuts'
      cases cuts' with
      | none => exact .none
      | first inside isQuery starts =>
        exact .first (inside.trans further.isInfix) isQuery starts
    | first inside isQuery starts => exact .first inside isQuery starts

/-- Behind a step that reads no queries. -/
theorem behind {rule : Rule α} {next next' : α → Parse β} {deep : β → List Query → Prop}
    (reads : ∀ previous rest, Derives previous rest step rule)
    (second : ∀ value, Limited limit deep (next value) (next' value)) :
    Limited limit deep (step >>= next) (step >>= next') := by
  have flat : Limited limit (fun _ found => found = []) step step := plain reads fun _ _ _ => rfl
  refine bind flat fun value found none => ?_
  subst none
  exact second value

theorem ending {f : α → β} {deep' : β → List Query → Prop} (first : Limited limit deep step step')
    (holds : ∀ value found, deep value found → deep' (f value) found) :
    Limited limit deep' (step >>= fun value => Pure.pure (f value))
      (step' >>= fun value => Pure.pure (f value)) :=
  bind first fun value found known => pure (by
    rw [List.append_nil]
    exact holds value found known)

theorem fail {expected : Expectation} {hint : Option Hint} {step : Parse α} :
    Limited limit deep step (fail expected hint) := fun _ _ _ result => nomatch result

theorem peek {next next' : Option Token → Parse α}
    (each : ∀ token, Limited limit deep (next token) (next' token)) :
    Limited limit deep (peek? >>= next) (peek? >>= next') :=
  fun cursor => each cursor.token? cursor

theorem here {next next' : Span → Parse α}
    (each : ∀ span, Limited limit deep (next span) (next' span)) :
    Limited limit deep (Parse.here >>= next) (Parse.here >>= next') :=
  fun cursor => each cursor.span cursor

theorem last {next next' : Span → Parse α}
    (each : ∀ span, Limited limit deep (next span) (next' span)) :
    Limited limit deep (Parse.last >>= next) (Parse.last >>= next') :=
  fun cursor => each cursor.previous cursor

theorem measured {f g : Nat → Parse α} (each : ∀ size, Limited limit deep (f size) (g size)) :
    Limited limit deep (do f (← get).rest.length) (do g (← get).rest.length) :=
  fun cursor => each cursor.rest.length cursor

theorem ite {condition : Prop} [Decidable condition] {yes yes' no no' : Parse α}
    (first : Limited limit deep yes yes') (second : Limited limit deep no no') :
    Limited limit deep (if condition then yes else no) (if condition then yes' else no') := by
  split
  · exact first
  · exact second

theorem accepting {token : Token} {next next' : Bool → Parse α}
    (each : ∀ there, Limited limit deep (next there) (next' there)) :
    Limited limit deep (Parse.accept token >>= next) (Parse.accept token >>= next') :=
  behind (fun _ _ => Derives.optionally token) each

theorem expecting {token : Token} {expected : Expectation} {next next' : Span → Parse α}
    (each : ∀ span, Limited limit deep (next span) (next' span)) :
    Limited limit deep (Parse.expect token expected >>= next)
      (Parse.expect token expected >>= next') := by
  have reads : ∀ previous rest,
      Derives previous rest (Parse.expect token expected) fun _ _ => True := by
    intro previous rest
    rw [← bind_pure (Parse.expect token expected)]
    exact Derives.expecting fun _ _ _ _ => Derives.pure trivial
  exact behind reads each

theorem skipping {next next' : Unit → Parse α}
    (each : Limited limit deep (next ()) (next' ())) :
    Limited limit deep (Parse.skip >>= next) (Parse.skip >>= next') := by
  have reads : ∀ previous rest, Derives previous rest Parse.skip fun _ _ => True := by
    intro previous rest
    cases rest with
    | nil => exact Derives.pure trivial
    | cons lexeme left =>
      rw [← bind_pure Parse.skip]
      exact Derives.skip (Derives.pure trivial)
  exact behind reads fun _ => each

/-! ### Lists and clauses -/

section

variable {list : α → List Query} (item : Limited limit (All list) step step')
include item

theorem more {separator : Token} (bound : Nat) :
    Limited limit (All (List.flatMap list))
      (Parse.more separator step bound) (Parse.more separator step' bound) := by
  induction bound with
  | zero => exact pure rfl
  | succ bound ih =>
    refine accepting fun _ => ite (bind item fun value found known => ?_) (pure rfl)
    exact ending ih fun values found' others => congrArg₂ (· ++ ·) known others

theorem separated {separator : Token} :
    Limited limit (All (List.flatMap list))
      (Parse.separated separator step) (Parse.separated separator step') := by
  refine bind item fun value found known => ?_
  exact ending (measured fun size => more item size) fun values found' others =>
    congrArg₂ (· ++ ·) known others

theorem clause {keyword : Keyword} :
    Limited limit (All fun value => value.toList.flatMap list)
      (clause? keyword step) (clause? keyword step') := by
  exact accepting fun _ => ite (ending item fun value _ known =>
    (List.flatMap_singleton list value).trans known) (pure rfl)

end

/-! ### Conditions -/

theorem expression {next next' : Expr → Parse α}
    (each : ∀ value, Limited limit deep (next value) (next' value)) :
    Limited limit deep (Parse.expression >>= next) (Parse.expression >>= next') :=
  behind (fun _ _ => Derives.expression) each

section

variable {list : Query → List Query} {nested nested' : Parse Query} {tested : Expr} {negated : Bool}
  (inner : Limited limit (All list) nested nested')
include inner

theorem inSource : Limited limit (All (Predicate.inside list))
    (Parse.inSource nested tested negated) (Parse.inSource nested' tested negated) := by
  refine peek fun token => ?_
  split
  · exact here fun _ => skipping (pure rfl)
  · refine expecting fun _ => peek fun _ => ite (bind inner fun query found known => ?_) ?_
    · exact expecting fun _ => pure ((List.flatMap_singleton list query).trans
        (known.trans (List.append_nil found).symm))
    · exact behind (fun _ _ => Derives.separated fun _ _ => Derives.expression) fun _ =>
        expecting fun _ => pure rfl

theorem negatableTest : Limited limit (All (Predicate.inside list))
    (Parse.negatableTest nested tested negated) (Parse.negatableTest nested' tested negated) := by
  refine accepting fun _ => ite (inSource inner) ?_
  refine accepting fun _ => ite ?_ (accepting fun _ => ite ?_ fail)
  · exact expression fun _ => expecting fun _ => expression fun _ => pure rfl
  · exact expression fun _ =>
      behind (fun _ _ => Derives.clause fun _ _ => Derives.escapeCharacter) fun _ => pure rfl

theorem test : Limited limit (All (Predicate.inside list))
    (Parse.test nested tested) (Parse.test nested' tested) := by
  refine peek fun token => ?_
  cases token.bind comparison? with
  | some comparison => exact skipping (expression fun _ => pure rfl)
  | none =>
    refine accepting fun _ => ite ?_ (accepting fun _ => negatableTest inner)
    exact accepting fun _ => expecting fun _ => pure rfl

variable {whole whole' : Parse Predicate}

theorem atom (group : Limited limit (All (Predicate.inside list)) whole whole') :
    Limited limit (All (Predicate.inside list)) (Parse.atom whole nested)
      (Parse.atom whole' nested') := by
  refine accepting fun _ => ite (bind group fun predicate found known => ?_) ?_
  · exact expecting fun _ => pure (known.trans (List.append_nil found).symm)
  refine accepting fun _ => ite (expecting fun _ => bind inner fun query found known => ?_) ?_
  · exact expecting fun _ => pure ((List.flatMap_singleton list query).trans
      (known.trans (List.append_nil found).symm))
  · exact expression fun _ => test inner

end

section

variable {list : Query → List Query} {unit unit' : Parse Predicate}
  (each : Limited limit (All (Predicate.inside list)) unit unit')
include each

theorem negation (bound : Nat) : Limited limit (All (Predicate.inside list))
    (Parse.negation unit bound) (Parse.negation unit' bound) := by
  induction bound with
  | zero => exact each
  | succ bound ih =>
    refine accepting fun _ => ite (peek fun _ => ite ?_ ?_) each
    · exact ending each fun predicate found known => (predicate.inside_opposite list).trans known
    · exact ending ih fun _ _ known => known

theorem disjunction : Limited limit (All (Predicate.inside list))
    (Parse.disjunction unit) (Parse.disjunction unit') := by
  have conjunction : Limited limit (All (Predicate.inside list))
      (return .allOf (← Parse.separated (.keyword .and) do
        Parse.negation unit (← get).rest.length))
      (return .allOf (← Parse.separated (.keyword .and) do
        Parse.negation unit' (← get).rest.length)) :=
    ending (separated (measured fun size => negation each size)) fun operands found known =>
      (Predicate.inside_allOf list operands).trans known
  exact ending (separated conjunction) fun operands found known =>
    (Predicate.inside_anyOf list operands).trans known

/-! ### Queries -/

theorem join : Limited limit (All fun join : Join Predicate =>
      join.condition.toList.flatMap (Predicate.inside list))
    (Parse.join unit) (Parse.join unit') := by
  refine here fun _ => behind (fun _ _ => Derives.joinKind) fun _ =>
    behind (fun _ _ => Derives.joinTarget) fun _ => accepting fun _ =>
    behind (fun _ _ => Derives.name) fun _ => bind (clause each) fun condition found known => ?_
  split
  · exact fail
  · exact last fun _ => pure (known.trans (List.append_nil found).symm)

theorem joins (bound : Nat) : Limited limit (All (List.flatMap fun join : Join Predicate =>
      join.condition.toList.flatMap (Predicate.inside list)))
    (Parse.joins unit bound) (Parse.joins unit' bound) := by
  induction bound with
  | zero => exact pure rfl
  | succ bound ih =>
    have ahead : ∀ previous rest, Derives previous rest atJoin fun _ _ => True :=
      fun _ _ => Derives.peek (by split <;> exact Derives.pure trivial)
    refine behind ahead fun _ => ite (bind (join each) fun join found known => ?_) (pure rfl)
    exact ending ih fun joins found' others => congrArg₂ (· ++ ·) known others

theorem query : Limited limit (All fun query => Query.subqueries query |>.flatMap list)
    (Parse.query unit) (Parse.query unit') := by
  refine expecting fun _ => accepting fun _ =>
    behind (fun _ _ => Derives.separated fun _ _ => Derives.selectItem) fun _ => expecting fun _ =>
    behind (fun _ _ => Derives.range) fun _ => ?_
  refine measured (f := fun size => Parse.joins unit size >>= _)
    (g := fun size => Parse.joins unit' size >>= _) fun size => ?_
  refine bind (joins each size) fun joins found known =>
    bind (clause each) fun filter found' known' =>
    behind (fun _ _ => Derives.byClause fun _ _ => Derives.expression) fun _ =>
    bind (clause each) fun having' found'' known'' =>
    behind (fun _ _ => Derives.byClause fun _ _ => Derives.orderItem) fun _ =>
    behind (fun _ _ => Derives.clause fun _ _ => Derives.count _) fun _ =>
    behind (fun _ _ => Derives.clause fun _ _ => Derives.count _) fun _ => last fun _ => pure ?_
  rw [All, Query.flatMap_subqueries, List.append_nil]
  exact congrArg₂ (· ++ ·) known (congrArg₂ (· ++ ·) known' known'')

end

/-- A query that is one level too deep is not read at all, and the error stands at its first
word. -/
theorem tooDeep {reading : Parse Query}
    (reads : ∀ previous rest, Derives previous rest reading Grammar.IsQuery) :
    Limited limit (All (Query.queriesAt 0)) (do throw (.tooDeep limit (← Parse.here))) reading := by
  rintro ⟨previous, rest, finish⟩ query after result
  obtain ⟨words, left, rfl, rfl, isQuery⟩ := reads previous rest finish query after result
  obtain ⟨select, more, rfl, _⟩ := isQuery.starts
  exact ⟨List.suffix_append _ left, [query], rfl, .first ⟨[], left, rfl⟩ isQuery rfl⟩

variable {limit' : Nat} (less : limit ≤ limit')
include less

/-- Queries inside are read at the next level, up to the limit. -/
theorem condition (depth : Nat) {level : Nat} (inside : level ≤ limit) :
    Limited limit (All (Predicate.inside (Query.queriesAt (limit - level))))
      (Parse.condition limit depth level) (Parse.condition limit' depth level) := by
  induction depth generalizing level with
  | zero => exact fail
  | succ depth ih =>
    refine disjunction (atom ?_ (ih inside))
    by_cases below : level < limit
    · have deeper : level + 1 ≤ limit := below
      have next := query (ih deeper)
      rw [subquery, subquery, if_neg (by omega), if_neg (by omega),
        show limit - level = limit - (level + 1) + 1 by omega]
      exact next
    · obtain rfl : level = limit := by omega
      rw [subquery, subquery, if_pos (Nat.le_refl _), Nat.sub_self]
      by_cases allowed : level < limit'
      · rw [if_neg (by omega)]
        exact tooDeep fun _ _ => (Derives.query fun _ _ => Derives.condition depth allowed).mono
          fun _ _ isSelect => isSelect.mono fun _ _ holds => holds.1
      · rw [if_pos (by omega)]
        intro cursor value after result
        cases result

theorem statement : Limited limit (All (Query.queriesAt (limit + 1)))
    (Parse.statement limit) (Parse.statement limit') :=
  measured fun size => query (condition less size (Nat.zero_le limit))

omit less in
/-- What is read of all lexemes is the same, or the run with the lower limit fails at the first
query that is too deep. -/
theorem readAll {α : Type} {step step' : Parse α} {list : α → List Query}
    (limited : Limited limit (All list) step step') {expected : Expectation} {lexemes : List Lexeme}
    {stop : Nat} {value : α} (read : step'.readAll expected lexemes stop = .ok value) :
    step.readAll expected lexemes stop = .ok value ∨
      ∃ words select inner others, list value = inner :: others ∧ words <:+: lexemes ∧
        Grammar.IsQuery words inner ∧ words.head? = some select ∧
        step.readAll expected lexemes stop = .error (.tooDeep limit select.span) := by
  have ended : ∀ previous rest, Derives previous rest (Parse.finish expected) fun _ _ => True :=
    fun _ _ => Derives.finish.mono fun _ _ _ => trivial
  have whole : Limited limit (All list)
      (step >>= fun value => Parse.finish expected >>= fun _ => Pure.pure value)
      (step' >>= fun value => Parse.finish expected >>= fun _ => Pure.pure value) :=
    bind limited fun value found known => behind ended fun _ =>
      pure (known.trans (List.append_nil found).symm)
  obtain ⟨after, result⟩ := readAll_ok.mp read
  obtain ⟨_, found, known, cuts⟩ := whole _ value after result
  unfold Parse.readAll
  dsimp only
  generalize (step >>= fun value => Parse.finish expected >>= fun _ => Pure.pure value)
    ⟨.point 0, lexemes, stop⟩ = outcome at cuts
  cases cuts with
  | none => exact .inl rfl
  | first inside isQuery starts => exact .inr ⟨_, _, _, _, known, inside, isQuery, starts, rfl⟩

end Limited

end Parse

/-! ### The first query that is too deep -/

namespace Grammar

variable {words : List Lexeme} {query : Query}

theorem IsPredicate.subqueries {predicate : Predicate} (isPredicate : IsPredicate words predicate) :
    Among IsQuery words predicate.subqueries := by
  rw [Predicate.subqueries_eq]
  refine isPredicate.parts.filterMap fun words part inner isConstruct found => ?_
  obtain rfl := Construct.query?_eq_some found
  cases isConstruct with
  | query holds => exact holds

/-- The queries inside a query stand in its lexemes one after another. -/
theorem IsQuery.subqueries (isQuery : IsQuery words query) :
    Among IsQuery words query.subqueries := by
  have condition : ∀ {words found keyword},
      Maybe (Behind (.keyword keyword) IsPredicate) words found →
      Among IsQuery words (found.toList.flatMap Predicate.subqueries) :=
    fun maybe => maybe.among fun _ _ behind => behind.among fun _ _ holds => holds.subqueries
  rw [Query.subqueries, Select.flatMap_conditions, List.append_assoc]
  cases isQuery with
  | @mk select _ words₁ words₂ words₃ _ _ words₆ _ _ _ _ _ _ _ _ _ _ _ _ _ _ _ _ _ _ joined filtered
      _ kept _ _ _ whole =>
    subst whole
    refine .behind (.behind (.behind (.behind ?_ words₃) words₂) words₁) [select]
    refine .append (joined.among fun _ _ isJoin => ?_) (.append (condition filtered) ?_)
    · cases isJoin with
      | @mk _ words₁ words₂ words₃ words₄ _ _ _ _ _ _ _ _ _ _ related _ whole =>
        subst whole
        exact .behind (.behind (.behind (.behind (condition related) words₄) words₃) words₂) words₁
    · exact .behind ((condition kept).before _) words₆

theorem IsQuery.queriesAt (isQuery : IsQuery words query) (level : Nat) :
    Among IsQuery words (query.queriesAt level) := by
  induction level generalizing words query with
  | zero => exact .single isQuery
  | succ level ih => exact isQuery.subqueries.flatMap fun _ _ inner => ih inner

end Grammar

/-- Under two limits a source is read as the same query, if that is within the lower one. If it is
not, the lower limit makes the parser fail at SELECT of a query that is one level too deep, and is
the first such query in the source. -/
theorem Query.parse_limited {limit limit' : Nat} (less : limit ≤ limit') (source : String)
    (query : Query) :
    (Query.parse source limit = .ok query ↔
        Query.parse source limit' = .ok query ∧ query.nesting ≤ limit) ∧
      (Query.parse source limit' = .ok query → limit < query.nesting →
        ∃ lexemes select inner others, tokenize source = .ok lexemes ∧
          query.queriesAt (limit + 1) = inner :: others ∧
          (∀ other ∈ others, inner.span.Before other.span) ∧
          select ∈ lexemes ∧ select.token = .keyword .select ∧
          (∃ start stop stop', select.span = .between start stop ∧
            inner.span = .between start stop') ∧
          Query.parse source limit = .error (.tooDeep limit select.span)) := by
  have parses := fun limit => (Query.parse_derives limit).2.2 source query
  refine ⟨?_, fun parsed deep => ?_⟩
  · rw [parses limit, parses limit']
    constructor
    · rintro ⟨lexemes, tokens, isQuery, within⟩
      exact ⟨⟨lexemes, tokens, isQuery, Nat.le_trans within less⟩, within⟩
    · rintro ⟨⟨lexemes, tokens, isQuery, _⟩, within⟩
      exact ⟨lexemes, tokens, isQuery, within⟩
  · obtain ⟨lexemes, tokens, isQuery, _⟩ := (parses limit').mp parsed
    have outcome : Query.parse source limit = .ok query ∨ ∃ words select inner others,
        query.queriesAt (limit + 1) = inner :: others ∧ words <:+: lexemes ∧
        Grammar.IsQuery words inner ∧ words.head? = some select ∧
        Query.parse source limit = .error (.tooDeep limit select.span) := by
      unfold Query.parse Parse.run at parsed ⊢
      rw [tokens] at parsed ⊢
      exact (Parse.Limited.statement less).readAll parsed
    rcases outcome with
      shallow | ⟨words, select, inner, others, found, inside, isInner, starts, fails⟩
    · obtain ⟨_, _, _, within⟩ := (parses limit).mp shallow
      omega
    obtain ⟨first, more, rfl, announced⟩ := isInner.starts
    obtain rfl := Option.some.inj starts
    have member : first ∈ lexemes := inside.subset List.mem_cons_self
    have reaching : Reaching Grammar.IsQuery Select.span :=
      fun holds => IsConstruct.reaching (.query holds)
    obtain ⟨_, _, _, stretch⟩ := (tiles_of_tokenize tokens).stretch (List.ne_nil_of_mem member)
    obtain ⟨ordered, _⟩ := (isQuery.queriesAt (limit + 1)).places reaching stretch
    rw [found] at ordered
    obtain ⟨start, stop, _, _, own⟩ := stretch.part inside (List.cons_ne_nil _ _)
    obtain ⟨middle, _, place⟩ := own.head
    exact ⟨lexemes, first, inner, others, tokens, found, (List.pairwise_cons.mp ordered).1, member,
      announced, ⟨start, middle, stop, place, (reaching isInner).2 own⟩, fails⟩

/-- A query behind another one is read at the level that the other one was, so the first that is too
deep stands in it. -/
theorem Query.parse_limited_sibling : ∃ query,
    Query.parse "select a from A a where exists (select b from B b) and exists (select c from C c where c.d in (select d from D d))"
      2 = .ok query ∧ 1 < query.nesting ∧
    ∃ lexemes select inner others,
      tokenize "select a from A a where exists (select b from B b) and exists (select c from C c where c.d in (select d from D d))" =
        .ok lexemes ∧
      query.queriesAt 2 = inner :: others ∧ (∀ other ∈ others, inner.span.Before other.span) ∧
      select ∈ lexemes ∧ select.token = .keyword .select ∧
      (∃ start stop stop', select.span = .between start stop ∧ inner.span = .between start stop') ∧
      Query.parse "select a from A a where exists (select b from B b) and exists (select c from C c where c.d in (select d from D d))"
        1 = .error (.tooDeep 1 select.span) := by
  have runs : (Query.parse "select a from A a where exists (select b from B b) and exists (select c from C c where c.d in (select d from D d))"
      2).toOption.map Query.nesting = some 2 := by
    decide +kernel
  generalize "select a from A a where exists (select b from B b) and exists (select c from C c where c.d in (select d from D d))" =
    source at runs
  cases parsed : Query.parse source 2 with
  | error error =>
    rw [parsed] at runs
    cases runs
  | ok query =>
    rw [parsed] at runs
    have deep : 1 < query.nesting := by
      rw [Option.some.inj runs]
      decide
    exact ⟨query, rfl, deep,
      (Query.parse_limited (show 1 ≤ 2 by decide) source query).2 parsed deep⟩

end QueryGuard
