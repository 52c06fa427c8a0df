import QueryGuard.Proofs.Grammar.Induction
import QueryGuard.Proofs.Places.Stretch
/-!
The constructs of a query that have places, as a tree: which stand directly inside which, and that
each is derived from lexemes of its own.

Conditions have no places. What stands in a condition stands in the join or the query that the
condition belongs to.
-/

set_option autoImplicit false

namespace QueryGuard

/-- A part of a query that has a place. -/
inductive Construct where
  | query (query : Query)
  | item (item : SelectItem)
  | join (join : Join Predicate)
  | order (item : OrderItem)
  | expr (expr : Expr)
  | path (path : Path)
  /-- A name, a text or a number by itself. -/
  | word (place : Span)

namespace Construct

def span : Construct → Span
  | query found => found.span
  | item found => found.span
  | join found => found.span
  | order found => found.span
  | expr found => found.span
  | path found => found.span
  | word place => place

/-- The query that a construct is. -/
def query? : Construct → Option Query
  | query found => some found
  | _ => none

/-- A name or a number of a construct. -/
def ofLocated {α : Type} (located : Located α) : Construct := .word located.span

end Construct

/-- The expressions of a test and what else it holds. -/
def Test.constructs : Test → List Construct
  | .inParameter tested parameter _ => [.expr tested, .ofLocated parameter]
  | .like tested pattern escape _ =>
      .expr tested :: .expr pattern :: escape.toList.map .ofLocated
  | test => test.exprs.map .expr

namespace Predicate

mutual

/-- What stands in a condition, but not inside other constructs of it. -/
def constructs : Predicate → List Construct
  | .and operands => constructsOfAll operands
  | .or operands => constructsOfAll operands
  | .not operand => operand.constructs
  | .group operand => operand.constructs
  | .test leaf => leaf.constructs
  | .inQuery tested query _ => [.expr tested, .query query]
  | .existsIn query _ => [.query query]

def constructsOfAll : List Predicate → List Construct
  | [] => []
  | predicate :: rest => predicate.constructs ++ constructsOfAll rest

end

theorem constructsOfAll_eq_flatMap (predicates : List Predicate) :
    constructsOfAll predicates = predicates.flatMap constructs := by
  induction predicates with
  | nil => rfl
  | cons predicate rest ih => simp only [constructsOfAll, ih, List.flatMap_cons]

@[simp] theorem constructs_and (operands : List Predicate) :
    (Predicate.and operands).constructs = operands.flatMap constructs := by
  rw [constructs, constructsOfAll_eq_flatMap]

@[simp] theorem constructs_or (operands : List Predicate) :
    (Predicate.or operands).constructs = operands.flatMap constructs := by
  rw [constructs, constructsOfAll_eq_flatMap]

end Predicate

namespace Construct

/-- An entity and its alias. -/
def ofRange (range : Range) : List Construct := [.ofLocated range.entity, .ofLocated range.name]

/-- What is joined. -/
def ofTarget : JoinTarget → Construct
  | .path chain => .path chain
  | .entity name => .ofLocated name

/-- The constructs directly inside another, in the order of the text. -/
def parts : Construct → List Construct
  | query found =>
      found.items.map .item ++ (ofRange found.root ++ (found.joins.map .join ++
        (found.filter.toList.flatMap Predicate.constructs ++ (found.groupBy.map .expr ++
        (found.having.toList.flatMap Predicate.constructs ++ (found.orderBy.map .order ++
        (found.limit.toList.map .ofLocated ++ found.offset.toList.map .ofLocated)))))))
  | item found => .expr found.expr :: found.label.toList.map .ofLocated
  | join found =>
      .ofTarget found.target :: .ofLocated found.name ::
        found.condition.toList.flatMap Predicate.constructs
  | order found => [.expr found.expr]
  | expr (.path chain) => [.path chain]
  | expr (.aggregate _ _ argument _) => [.expr argument]
  | expr (.call name arguments _) => .ofLocated name :: arguments.map .expr
  | expr (.literal _) | expr (.parameter _) => []
  | path chain => .ofLocated chain.root :: chain.attributes.map .ofLocated
  | word _ => []

/-- One construct is another, or stands somewhere inside it. -/
inductive Holds : Construct → Construct → Prop where
  | self (construct : Construct) : Holds construct construct
  | inside {construct part inner : Construct} (direct : part ∈ construct.parts)
      (below : Holds part inner) : Holds construct inner

end Construct

/-- The queries inside a condition are those among what stands in it. -/
theorem Predicate.subqueries_eq (predicate : Predicate) :
    predicate.subqueries = predicate.constructs.filterMap Construct.query? := by
  induction predicate using Predicate.induction with
  | and operands ih =>
    rw [subqueries_and, constructs_and, List.filterMap_flatMap, List.flatMap_congr ih]
  | or operands ih =>
    rw [subqueries_or, constructs_or, List.filterMap_flatMap, List.flatMap_congr ih]
  | not operand ih => exact ih
  | group operand ih => exact ih
  | test test =>
    have none : ∀ part ∈ test.constructs, part.query? = none := by
      cases test <;> simp [Test.constructs, Test.exprs, Construct.query?, Construct.ofLocated]
    exact (List.filterMap_eq_nil_iff.mpr none).symm
  | inQuery tested query negated => rfl
  | existsIn query negated => rfl

theorem Construct.query?_eq_some {construct : Construct} {inner : Query}
    (found : construct.query? = some inner) : construct = .query inner := by
  cases construct with
  | query other => exact congrArg Construct.query (Option.some.inj found)
  | _ => cases found

/-- The queries inside the conditions of a query stand inside it, those of joins by way of these. -/
theorem Construct.holds_subquery {query inner : Query} (member : inner ∈ query.subqueries) :
    (Construct.query query).Holds (.query inner) := by
  obtain ⟨condition, among, found⟩ := List.mem_flatMap.mp member
  rw [Predicate.subqueries_eq] at found
  obtain ⟨part, known, same⟩ := List.mem_filterMap.mp found
  obtain rfl := query?_eq_some same
  have direct : ∀ {optional : Option Predicate}, condition ∈ optional.toList →
      Construct.query inner ∈ optional.toList.flatMap Predicate.constructs :=
    fun present => List.mem_flatMap.mpr ⟨condition, present, known⟩
  simp only [Select.conditions, List.mem_append, List.mem_filterMap] at among
  rcases among with (⟨join, joined, same⟩ | filtered) | kept
  · have first : Construct.join join ∈ (Construct.query query).parts := by
      simp only [parts, List.mem_append, List.mem_map]
      exact .inr (.inr (.inl ⟨join, joined, rfl⟩))
    have present : condition ∈ join.condition.toList := by
      rw [same]
      exact List.mem_cons_self
    refine .inside first (.inside ?_ (.self _))
    exact List.mem_cons_of_mem _ (List.mem_cons_of_mem _ (direct present))
  · refine .inside ?_ (.self _)
    simp only [parts, List.mem_append]
    exact .inr (.inr (.inr (.inl (direct filtered))))
  · refine .inside ?_ (.self _)
    simp only [parts, List.mem_append]
    exact .inr (.inr (.inr (.inr (.inr (.inl (direct kept))))))

namespace Grammar

variable {words : List Lexeme}

/-- The rule that a construct is derived by. -/
inductive IsConstruct : Rule Construct where
  | query {words : List Lexeme} {query : Query} (holds : IsQuery words query) :
      IsConstruct words (.query query)
  | item {words : List Lexeme} {item : SelectItem} (holds : IsSelectItem words item) :
      IsConstruct words (.item item)
  | join {words : List Lexeme} {join : Join Predicate} (holds : IsJoin IsPredicate words join) :
      IsConstruct words (.join join)
  | order {words : List Lexeme} {item : OrderItem} (holds : IsOrderItem words item) :
      IsConstruct words (.order item)
  | expr {words : List Lexeme} {expr : Expr} (holds : IsExpr words expr) :
      IsConstruct words (.expr expr)
  | path {words : List Lexeme} {path : Path} (holds : IsPath words path) :
      IsConstruct words (.path path)
  | word (lexeme : Lexeme) : IsConstruct [lexeme] (.word lexeme.span)

/-! ### Names and numbers -/

theorem IsIdentifier.construct {name : Name} (isIdentifier : IsIdentifier words name) :
    IsConstruct words (.ofLocated name) := by
  cases isIdentifier <;> exact .word _

theorem IsWord.construct {name : Name} (isWord : IsWord words name) :
    IsConstruct words (.ofLocated name) := by
  cases isWord with
  | identifier holds => exact holds.construct
  | reserved => exact .word _

theorem IsText.construct {text : Name} (isText : IsText words text) :
    IsConstruct words (.ofLocated text) := by
  cases isText
  exact .word _

theorem IsCount.construct {count : Located Nat} (isCount : IsCount words count) :
    IsConstruct words (.ofLocated count) := by
  cases isCount
  exact .word _

theorem IsJoinTarget.construct {target : JoinTarget} (isTarget : IsJoinTarget words target) :
    IsConstruct words (.ofTarget target) := by
  cases isTarget with
  | path holds _ => exact .path holds
  | entity holds => exact holds.construct

/-! ### Parts of a construct -/

/-- Constructs that stand in the lexemes one after another. -/
abbrev Constructs : Rule (List Construct) := Among IsConstruct

theorem IsPath.parts {path : Path} (isPath : IsPath words path) :
    Constructs words (Construct.path path).parts := by
  cases isPath with
  | mk first others =>
    exact .cons first.construct (others.among_map_behind fun _ _ isWord => isWord.construct)

theorem IsExpr.parts {expr : Expr} (isExpr : IsExpr words expr) :
    Constructs words (Construct.expr expr).parts := by
  cases isExpr with
  | path holds => exact .single (.path holds)
  | literal | parameter => exact .none
  | @aggregate callee opening _ words _ _ _ _ _ _ _ _ _ inside _ =>
    have argument := Among.single (IsConstruct.expr inside)
    exact ((argument.before _).behind words).behind [callee, opening]
  | @call callee opening closing words name arguments called _ _ inside _ =>
    have listed : Constructs words ((arguments.getD []).map .expr) := by
      cases inside with
      | absent => exact .none
      | present chain => exact chain.among_map fun _ _ => .expr
    exact Among.cons (.word callee) ((listed.before [closing]).behind [opening])

theorem IsTest.parts {tested : Expr} {test : Test} {words' : List Lexeme}
    (value : IsExpr words tested) (isTest : IsTest tested words' test) :
    Constructs (words ++ words') test.constructs := by
  have first := IsConstruct.expr value
  cases isTest with
  | compare _ _ other => exact .cons first (.behind (.single (.expr other)) [_])
  | @inList member words' _ _ _ _ _ listed =>
    refine .cons first (.behind (.behind ?_ [member]) words')
    exact listed.among fun _ _ chain => chain.among_map fun _ _ => .expr
  | @inParameter member lexeme words' =>
    exact .cons first (.behind (.behind (.single (.word lexeme)) [member]) words')
  | @between between and words' _ _ _ _ _ _ _ least _ most =>
    refine .cons first (.behind (.behind (.cons (.expr least) ?_) [between]) words')
    exact .behind (.single (.expr most)) [and]
  | isNull => exact (Among.single first).before _
  | @like like words' _ _ _ _ _ _ _ matched escaped =>
    refine .cons first (.behind (.behind (.cons (.expr matched) ?_) [like]) words')
    exact escaped.among_map fun _ _ isText => isText.construct

theorem IsSelectItem.parts {item : SelectItem} (isItem : IsSelectItem words item) :
    Constructs words (Construct.item item).parts := by
  cases isItem with
  | bare value => exact .single (.expr value)
  | @labelled _ words' _ _ _ _ value _ name =>
    exact .cons (.expr value) (.behind (.single name.construct) words')

theorem IsOrderItem.parts {item : OrderItem} (isItem : IsOrderItem words item) :
    Constructs words (Construct.order item).parts := by
  cases isItem with
  | ascending value | descending value => exact (Among.single (.expr value)).before _

theorem constructs_opposite (predicate : Predicate) :
    (opposite predicate).constructs = predicate.constructs := by
  unfold opposite
  split <;> rfl

/-- The constructs in a condition stand in the lexemes one after another. -/
def Contains : Rule Predicate := fun words predicate => Constructs words predicate.constructs

theorem IsPredicate.parts {predicate : Predicate} (isPredicate : IsPredicate words predicate) :
    Constructs words predicate.constructs := by
  have nested : ∀ {words query}, Enclosed (IsSelect (Both Contains)) words query →
      Constructs words [.query query] :=
    fun inside => inside.among (f := fun query => [Construct.query query]) fun _ _ isSelect =>
      .single (IsConstruct.query (isSelect.mono fun _ _ holds => holds.1))
  refine IsPredicate.induction Contains Contains Contains Contains
    ?anyOf ?allOf id ?negated ?group ?existsIn ?inQuery IsTest.parts isPredicate
  case anyOf =>
    intro words operands chain
    rw [Contains, Predicate.flatMap_anyOf Predicate.constructs_or]
    exact chain.among fun _ _ holds => holds
  case allOf =>
    intro words operands chain
    rw [Contains, Predicate.flatMap_allOf Predicate.constructs_and]
    exact chain.among fun _ _ holds => holds
  case negated =>
    intro lexeme words predicate _ operand
    rw [Contains, constructs_opposite]
    exact operand.behind [lexeme]
  case group => exact fun inside => inside.among fun _ _ holds => holds
  case existsIn => exact fun _ inside => (nested inside).behind [_]
  case inQuery =>
    exact fun value _ _ inside => .cons (.expr value) (.behind (.behind (nested inside) [_]) _)

theorem IsJoin.parts {join : Join Predicate} (isJoin : IsJoin IsPredicate words join) :
    Constructs words (Construct.join join).parts := by
  cases isJoin with
  | @mk _ words₁ _ words₃ _ _ _ _ _ _ _ announced joined as goesBy related required whole =>
    subst whole
    refine .behind (.cons joined.construct (.behind (.cons goesBy.construct ?_) words₃)) words₁
    exact related.among fun _ _ behind => behind.among fun _ _ holds => holds.parts

theorem IsRange.parts {range : Range} (isRange : IsRange words range) :
    Constructs words (Construct.ofRange range) := by
  cases isRange with
  | @mk _ words' _ _ _ _ kind as goesBy =>
    exact .cons kind.construct (.behind (.single goesBy.construct) words')

theorem Maybe.parts_by {α : Type} {item : Rule α} {keyword : Keyword} {list : Option (List α)}
    {f : α → Construct} (maybe : Maybe (IsListBy keyword item) words list)
    (each : ∀ words value, item words value → IsConstruct words (f value)) :
    Constructs words ((list.getD []).map f) := by
  cases maybe with
  | absent => exact .none
  | present behind =>
    exact behind.among (f := List.map f) fun _ _ behind => behind.among (f := List.map f)
      fun _ _ chain => chain.among_map each

theorem IsQuery.parts {query : Query} (isQuery : IsQuery words query) :
    Constructs words (Construct.query query).parts := by
  have conditions : ∀ {words condition keyword},
      Maybe (Behind (.keyword keyword) IsPredicate) words condition →
      Constructs words (condition.toList.flatMap Predicate.constructs) :=
    fun maybe => maybe.among fun _ _ behind => behind.among fun _ _ holds => holds.parts
  cases isQuery with
  | @mk select _ words₁ _ _ _ _ _ _ _ _ _ _ _ _ _ _ _ _ _ _ _ announced skips selected root
      joined filtered grouped kept ordered limited skipped whole =>
    subst whole
    refine .behind (.behind (.append (selected.among_map fun _ _ => .item) ?_) words₁) [select]
    refine .append (root.among fun _ _ isRange => isRange.parts) ?_
    refine .append (joined.among_map fun _ _ => .join) (.append (conditions filtered) ?_)
    refine .append (grouped.parts_by fun _ _ => .expr) (.append (conditions kept) ?_)
    refine .append (ordered.parts_by fun _ _ => .order) ?_
    exact .append (limited.among_map fun _ _ isCount => isCount.construct)
      (skipped.among_map fun _ _ isCount => isCount.construct)

/-- The parts of a construct stand in its lexemes one after another. -/
theorem IsConstruct.parts {construct : Construct} (isConstruct : IsConstruct words construct) :
    Constructs words construct.parts := by
  cases isConstruct with
  | query holds => exact holds.parts
  | item holds => exact holds.parts
  | join holds => exact holds.parts
  | order holds => exact holds.parts
  | expr holds => exact holds.parts
  | path holds => exact holds.parts
  | word => exact .none

/-- What stands inside a construct is derived from some of its lexemes. -/
theorem IsConstruct.inner {construct inner : Construct} (isConstruct : IsConstruct words construct)
    (holds : construct.Holds inner) : ∃ part, part <:+: words ∧ IsConstruct part inner := by
  induction holds generalizing words with
  | self => exact ⟨words, List.infix_rfl, isConstruct⟩
  | inside direct _ ih =>
    obtain ⟨part, within, derived⟩ := isConstruct.parts.each _ direct
    obtain ⟨part', within', derived'⟩ := ih derived
    exact ⟨part', within'.trans within, derived'⟩

end Grammar

end QueryGuard
