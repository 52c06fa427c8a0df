import QueryGuard.Proofs.Grammar.Induction
import QueryGuard.Proofs.Lexing.Slices
/-!
Lexemes at other places derive the same trees at other places, if the places of constructs go along
with those of their lexemes.
-/

set_option autoImplicit false

namespace QueryGuard

/-- The smallest range that covers two goes to the one that covers where these go. -/
def Span.KeepsMerging (f : Span → Span) : Prop :=
  ∀ first second : Span, f (first.merge second) = (f first).merge (f second)

theorem Span.keepsMerging_shifted (old new : Nat) : KeepsMerging (shifted old new) := by
  intro first second
  cases first with
  | synthetic => rfl
  | between start stop =>
    cases second with
    | synthetic => rfl
    | between start' stop' =>
      simp only [shifted, between_merge_between, Span.between.injEq]
      omega

/-! ### Trees -/

section

variable (f : Span → Span)

def Located.relocate {α : Type} (located : Located α) : Located α :=
  ⟨located.value, f located.span⟩

def Path.relocate (path : Path) : Path :=
  ⟨path.root.relocate f, path.attributes.map (.relocate f), f path.span⟩

namespace Expr

/-- The expression with other places. -/
def relocate : Expr → Expr :=
  fold {
    path := fun chain => .path (chain.relocate f)
    literal := fun constant => .literal (constant.relocate f)
    parameter := fun name => .parameter (name.relocate f)
    aggregate := fun function distinct argument span =>
      .aggregate function distinct argument (f span)
    call := fun name arguments span => .call (name.relocate f) arguments (f span) }

@[simp] theorem relocate_aggregate (function : Aggregate) (distinct : Bool) (argument : Expr)
    (span : Span) :
    (Expr.aggregate function distinct argument span).relocate f =
      .aggregate function distinct (argument.relocate f) (f span) := rfl

@[simp] theorem relocate_call (name : Name) (arguments : List Expr) (span : Span) :
    (Expr.call name arguments span).relocate f =
      .call (name.relocate f) (arguments.map (relocate f)) (f span) := by
  simp only [relocate, fold_call]

@[simp] theorem span_relocate (expr : Expr) : (expr.relocate f).span = f expr.span := by
  cases expr with
  | call name arguments span => rw [relocate_call, Expr.span, Expr.span]
  | _ => rfl

end Expr

/-- The test with other places. -/
def Test.relocate : Test → Test
  | .compare left comparison right => .compare (left.relocate f) comparison (right.relocate f)
  | .inList tested items negated =>
      .inList (tested.relocate f) (items.map (Expr.relocate f)) negated
  | .inParameter tested parameter negated =>
      .inParameter (tested.relocate f) (parameter.relocate f) negated
  | .between tested low high negated =>
      .between (tested.relocate f) (low.relocate f) (high.relocate f) negated
  | .isNull tested negated => .isNull (tested.relocate f) negated
  | .like tested pattern escape negated =>
      .like (tested.relocate f) (pattern.relocate f) (escape.map (.relocate f)) negated

def SelectItem.relocate (item : SelectItem) : SelectItem :=
  ⟨item.expr.relocate f, item.label.map (.relocate f), f item.span⟩

def OrderItem.relocate (item : OrderItem) : OrderItem :=
  ⟨item.expr.relocate f, item.direction, f item.span⟩

def Range.relocate (range : Range) : Range :=
  ⟨range.entity.relocate f, range.name.relocate f⟩

def JoinTarget.relocate : JoinTarget → JoinTarget
  | .path chain => .path (chain.relocate f)
  | .entity name => .entity (name.relocate f)

section

variable {Condition : Type}

/-- The join with other places outside its condition. -/
def Join.relocate (join : Join Condition) : Join Condition :=
  ⟨join.kind, join.target.relocate f, join.name.relocate f, join.condition, f join.span⟩

/-- The clauses with other places outside the conditions. -/
def Select.relocate (query : Select Condition) : Select Condition where
  distinct := query.distinct
  items := query.items.map (.relocate f)
  root := query.root.relocate f
  joins := query.joins.map (.relocate f)
  filter := query.filter
  groupBy := query.groupBy.map (Expr.relocate f)
  having := query.having
  orderBy := query.orderBy.map (.relocate f)
  limit := query.limit.map (.relocate f)
  offset := query.offset.map (.relocate f)
  span := f query.span

end

/-- The walk that moves all places. -/
def relocationWalk : PredicateFold Predicate Query where
  and := .and
  or := .or
  not := .not
  group := .group
  test := fun leaf => .test (leaf.relocate f)
  inQuery := fun tested query negated => .inQuery (tested.relocate f) query negated
  existsIn := .existsIn
  query := Select.relocate f

/-- The condition with other places. -/
def Predicate.relocate : Predicate → Predicate := Predicate.fold (relocationWalk f)

/-- The query with other places. -/
def Query.relocate : Query → Query := Query.fold (relocationWalk f)

theorem Query.relocate_eq (query : Query) :
    Query.relocate f query = Select.relocate f (query.map (Predicate.relocate f)) :=
  Query.fold_eq (relocationWalk f) query

namespace Predicate

@[simp] theorem relocate_and (operands : List Predicate) :
    (Predicate.and operands).relocate f = .and (operands.map (relocate f)) := by
  simp only [relocate, fold_and, relocationWalk]

@[simp] theorem relocate_or (operands : List Predicate) :
    (Predicate.or operands).relocate f = .or (operands.map (relocate f)) := by
  simp only [relocate, fold_or, relocationWalk]

@[simp] theorem relocate_not (operand : Predicate) :
    operand.not.relocate f = (operand.relocate f).not := rfl

theorem relocate_allOf (operands : List Predicate) :
    (allOf operands).relocate f = allOf (operands.map (relocate f)) := by
  rcases operands with _ | ⟨first, _ | ⟨second, rest⟩⟩ <;> simp [allOf]

theorem relocate_anyOf (operands : List Predicate) :
    (anyOf operands).relocate f = anyOf (operands.map (relocate f)) := by
  rcases operands with _ | ⟨first, _ | ⟨second, rest⟩⟩ <;> simp [anyOf]

end Predicate

end

/-! ### Rules -/

namespace Grammar

section

variable {α β : Type} {f : Span → Span} {item : Rule α} {item' : Rule β} {g : α → β}
  {separator token : Token} {words : List Lexeme}

theorem getD_map_list (h : α → β) (list : Option (List α)) :
    (list.map (List.map h)).getD [] = (list.getD []).map h := by
  cases list <;> rfl

/-- A rule that derives values from lexemes at other places. -/
def Carries (f : Span → Span) (item : Rule α) (item' : Rule β) (g : α → β) : Prop :=
  ∀ words value, item words value → item' (words.map (Lexeme.relocate f)) (g value)

/-- The rule that derives what is derived at other places. -/
theorem Carries.already (item' : Rule β) :
    Carries f (fun words value => item' (words.map (Lexeme.relocate f)) (g value)) item' g :=
  fun _ _ holds => holds

theorem Optionally.carries (f : Span → Span) {there : Bool}
    (optionally : Optionally token words there) :
    Optionally token (words.map (Lexeme.relocate f)) there := by
  cases optionally with
  | absent => exact .absent
  | present same => exact .present same

theorem Behind.carries (each : Carries f item item' g) :
    Carries f (Behind token item) (Behind token item') g := by
  rintro _ _ ⟨same, holds⟩
  exact .mk same (each _ _ holds)

theorem Enclosed.carries (each : Carries f item item' g) :
    Carries f (Enclosed item) (Enclosed item') g := by
  rintro _ _ ⟨opened, holds, closed⟩
  simp only [List.map_cons, List.map_append, List.map_nil]
  exact .mk opened (each _ _ holds) closed

theorem Maybe.carries (each : Carries f item item' g) :
    Carries f (Maybe item) (Maybe item') (Option.map g) := by
  intro words value maybe
  cases maybe with
  | absent => exact .absent
  | present holds => exact .present (each _ _ holds)

theorem Repeated.carries (each : Carries f item item' g) :
    Carries f (Repeated item) (Repeated item') (List.map g) := by
  intro words values repeated
  induction repeated with
  | none => exact .none
  | more first _ ih =>
    rw [List.map_append]
    exact .more (each _ _ first) ih

theorem Separated.carries (each : Carries f item item' g) :
    Carries f (Separated separator item) (Separated separator item') (List.map g) := by
  rintro _ _ ⟨first, others⟩
  rw [List.map_append]
  exact .mk (each _ _ first) (Repeated.carries (Behind.carries each) _ _ others)

end

section

variable (f : Span → Span) {words : List Lexeme}

theorem lastPlace_relocate (previous : Span) (words : List Lexeme) :
    lastPlace (f previous) (words.map (Lexeme.relocate f)) = f (lastPlace previous words) := by
  induction words generalizing previous with
  | nil => rfl
  | cons lexeme rest ih => exact ih lexeme.span

theorem relocate_opposite (predicate : Predicate) :
    (opposite predicate).relocate f = opposite (predicate.relocate f) := by
  cases predicate with
  | existsIn query negated => cases negated <;> rfl
  | and operands | or operands => simp only [opposite, Predicate.relocate_not,
      Predicate.relocate_and, Predicate.relocate_or]
  | _ => rfl

theorem IsIdentifier.carries : Carries f IsIdentifier IsIdentifier (.relocate f) := by
  intro words name isIdentifier
  cases isIdentifier with
  | plain same => exact .plain same
  | quoted same => exact .quoted same

theorem IsWord.carries : Carries f IsWord IsWord (.relocate f) := by
  intro words name isWord
  cases isWord with
  | identifier holds => exact .identifier (IsIdentifier.carries f _ _ holds)
  | reserved same => exact .reserved same

theorem IsText.carries : Carries f IsText IsText (.relocate f) := by
  rintro _ _ ⟨same⟩
  exact .mk same

theorem IsCount.carries : Carries f IsCount IsCount (.relocate f) := by
  rintro _ _ ⟨same⟩
  exact .mk same

theorem IsRange.carries : Carries f IsRange IsRange (.relocate f) := by
  rintro _ _ ⟨kind, as, goesBy⟩
  simp only [List.map_append]
  exact .mk (IsWord.carries f _ _ kind) (as.carries f) (IsIdentifier.carries f _ _ goesBy)

theorem IsJoinKind.carries : Carries f IsJoinKind IsJoinKind id := by
  intro words kind isJoinKind
  cases isJoinKind with
  | inner inner same =>
    rw [List.map_append]
    exact .inner (inner.carries f) same
  | left announced outer same =>
    rw [List.map_cons, List.map_append]
    exact .left announced (outer.carries f) same

end

section

variable {f : Span → Span} (keeps : Span.KeepsMerging f) {words : List Lexeme}
include keeps

theorem extent_relocate (nonempty : words ≠ []) :
    extent (words.map (Lexeme.relocate f)) = f (extent words) := by
  obtain ⟨first, rest, rfl⟩ := List.exists_cons_of_ne_nil nonempty
  rw [List.map_cons, extent, extent, keeps, ← lastPlace_relocate f]
  rfl

theorem IsPath.carries : Carries f IsPath IsPath (.relocate f) := by
  have merged : ∀ (attributes : List Name) (start : Span),
      f (attributes.foldl (fun span name => span.merge name.span) start) =
        (attributes.map (Located.relocate f)).foldl (fun span name => span.merge name.span)
          (f start) := by
    intro attributes
    induction attributes with
    | nil => exact fun _ => rfl
    | cons name rest ih =>
      intro start
      rw [List.foldl_cons, ih, keeps]
      rfl
  rintro _ _ ⟨first, others⟩
  rw [List.map_append, Path.relocate, merged]
  exact .mk (IsIdentifier.carries f _ _ first)
    (Repeated.carries (Behind.carries (IsWord.carries f)) _ _ others)

theorem IsLiteral.carries : Carries f IsLiteral IsLiteral (.relocate f) := by
  have signed : ∀ sign lexeme : Lexeme, f (extent [sign, lexeme]) =
      extent [sign.relocate f, lexeme.relocate f] :=
    fun sign lexeme => (extent_relocate keeps (List.cons_ne_nil _ _)).symm
  intro words literal isLiteral
  cases isLiteral with
  | string same => exact .string same
  | integer same => exact .integer same
  | decimal same => exact .decimal same
  | true same => exact .true same
  | false same => exact .false same
  | null same => exact .null same
  | negativeInteger minus same =>
    rw [Located.relocate, signed]
    exact .negativeInteger minus same
  | negativeDecimal minus same =>
    rw [Located.relocate, signed]
    exact .negativeDecimal minus same

theorem IsExpr.carries : Carries f IsExpr IsExpr (Expr.relocate f) := by
  intro words expr isExpr
  refine IsExpr.induction
    (fun words expr => IsExpr (words.map (Lexeme.relocate f)) (expr.relocate f))
    (fun holds => .path (IsPath.carries keeps _ _ holds))
    (fun holds => .literal (IsLiteral.carries keeps _ _ holds))
    (fun same => .parameter same) ?aggregate ?call isExpr
  case aggregate =>
    intro callee opening closing words words' name function distinct argument called known opened
      skips inside closed
    rw [Expr.relocate_aggregate, keeps]
    simp only [List.map_cons, List.map_append, List.map_nil]
    exact .aggregate called known opened (skips.carries f) inside closed
  case call =>
    intro callee opening closing words name arguments called custom opened inside closed
    have carried : Maybe (Separated (.symbol .comma) IsExpr) (words.map (Lexeme.relocate f))
        (arguments.map (List.map (Expr.relocate f))) :=
      Maybe.carries (Separated.carries (.already IsExpr)) _ _ inside
    rw [Expr.relocate_call, keeps, ← getD_map_list]
    simp only [List.map_cons, List.map_append, List.map_nil]
    exact .call called custom opened carried closed

theorem IsTest.carries {tested : Expr} :
    Carries f (IsTest tested) (IsTest (tested.relocate f)) (Test.relocate f) := by
  have exprs := IsExpr.carries keeps
  have listed : Carries f (Separated (.symbol .comma) IsExpr) (Separated (.symbol .comma) IsExpr)
      (List.map (Expr.relocate f)) := Separated.carries exprs
  intro words test isTest
  cases isTest with
  | compare written compares other => exact .compare written compares (exprs _ _ other)
  | inList opposite announced inside =>
    rw [List.map_append]
    exact .inList (opposite.carries f) announced (Enclosed.carries listed _ _ inside)
  | inParameter opposite announced same =>
    rw [List.map_append]
    exact .inParameter (opposite.carries f) announced same
  | between opposite announced least joined most =>
    simp only [List.map_append, List.map_cons]
    exact .between (opposite.carries f) announced (exprs _ _ least) joined (exprs _ _ most)
  | isNull announced opposite same =>
    simp only [List.map_append, List.map_cons]
    exact .isNull announced (opposite.carries f) same
  | like opposite announced matched escaped =>
    simp only [List.map_append, List.map_cons]
    exact .like (opposite.carries f) announced (exprs _ _ matched)
      (Maybe.carries (Behind.carries (IsText.carries f)) _ _ escaped)

theorem IsSelectItem.carries : Carries f IsSelectItem IsSelectItem (.relocate f) := by
  intro words item isItem
  cases isItem with
  | bare value =>
    rw [SelectItem.relocate, ← Expr.span_relocate f]
    exact .bare (IsExpr.carries keeps _ _ value)
  | labelled value as name =>
    rw [SelectItem.relocate, keeps, ← Expr.span_relocate f]
    simp only [List.map_append]
    exact .labelled (IsExpr.carries keeps _ _ value) (as.carries f)
      (IsIdentifier.carries f _ _ name)

theorem IsOrderItem.carries : Carries f IsOrderItem IsOrderItem (.relocate f) := by
  intro words item isItem
  cases isItem with
  | ascending value asc =>
    rw [OrderItem.relocate, keeps, ← lastPlace_relocate f, ← Expr.span_relocate f]
    simp only [List.map_append]
    exact .ascending (IsExpr.carries keeps _ _ value) (asc.carries f)
  | descending value desc =>
    rw [OrderItem.relocate, keeps, ← Expr.span_relocate f, List.map_append]
    exact .descending (IsExpr.carries keeps _ _ value) desc

theorem IsJoinTarget.carries : Carries f IsJoinTarget IsJoinTarget (.relocate f) := by
  intro words target isTarget
  cases isTarget with
  | path holds along =>
    refine .path (IsPath.carries keeps _ _ holds) ?_
    simpa [Path.relocate] using along
  | entity holds => exact .entity (IsWord.carries f _ _ holds)

section

variable {Condition : Type} {rule rule' : Rule Condition} {g : Condition → Condition}

theorem IsJoin.carries (each : Carries f rule rule' g) :
    Carries f (IsJoin rule) (IsJoin rule') fun join => (join.map g).relocate f := by
  rintro words _ ⟨announced, joined, as, goesBy, related, required, whole⟩
  have nonempty : words ≠ [] := by
    rw [whole]
    exact List.append_ne_nil_of_left_ne_nil announced.ne_nil _
  show IsJoin rule' _ ⟨_, _, _, _, f (extent words)⟩
  rw [← extent_relocate keeps nonempty]
  refine .mk (IsJoinKind.carries f _ _ announced) (IsJoinTarget.carries keeps _ _ joined)
    (as.carries f) (IsIdentifier.carries f _ _ goesBy)
    (Maybe.carries (Behind.carries each) _ _ related) ?_ ?_
  · rintro entity same
    rename_i target _ _ _
    cases target with
    | path => cases same
    | entity name => exact Option.isSome_map.trans (required name rfl)
  · simp only [whole, List.map_append]

theorem IsSelect.carries (each : Carries f rule rule' g) :
    Carries f (IsSelect rule) (IsSelect rule') fun query => (query.map g).relocate f := by
  rintro words _ ⟨announced, skips, selected, root, joined, filtered, grouped, kept, ordered,
    limited, skipped, whole⟩
  have nonempty : words ≠ [] := by simp [whole]
  have announced' : (Lexeme.relocate f _).token = .keyword .select := announced
  have carried := IsSelect.mk announced' (skips.carries f)
    (Separated.carries (IsSelectItem.carries keeps) _ _ selected)
    (Behind.carries (IsRange.carries f) _ _ root)
    (Repeated.carries (IsJoin.carries keeps each) _ _ joined)
    (Maybe.carries (Behind.carries each) _ _ filtered)
    (Maybe.carries (Behind.carries (Behind.carries (Separated.carries (IsExpr.carries keeps)))) _ _
      grouped)
    (Maybe.carries (Behind.carries each) _ _ kept)
    (Maybe.carries (Behind.carries (Behind.carries (Separated.carries (IsOrderItem.carries keeps))))
      _ _ ordered)
    (Maybe.carries (Behind.carries (IsCount.carries f)) _ _ limited)
    (Maybe.carries (Behind.carries (IsCount.carries f)) _ _ skipped)
    (congrArg (List.map (Lexeme.relocate f)) whole |>.trans (by
      simp only [List.map_cons, List.map_append]))
  rw [extent_relocate keeps nonempty, getD_map_list, getD_map_list] at carried
  simpa only [Select.map, Select.relocate, List.map_map, Function.comp_def] using carried

end

theorem IsPredicate.carries : Carries f IsPredicate IsPredicate (Predicate.relocate f) := by
  intro words predicate isPredicate
  have nested : Carries f (IsSelect (Both fun words predicate =>
      IsPredicate (words.map (Lexeme.relocate f)) (predicate.relocate f))) IsQuery
      (Query.relocate f) := by
    intro words query isSelect
    rw [Query.relocate_eq]
    exact IsSelect.carries keeps (fun _ _ holds => holds.2) _ _ isSelect
  refine IsPredicate.induction
    (fun words predicate => IsPredicate (words.map (Lexeme.relocate f)) (predicate.relocate f))
    (fun words predicate => IsConjunction (words.map (Lexeme.relocate f)) (predicate.relocate f))
    (fun words predicate => IsNegation (words.map (Lexeme.relocate f)) (predicate.relocate f))
    (fun words predicate => IsAtom (words.map (Lexeme.relocate f)) (predicate.relocate f))
    ?anyOf ?allOf .affirmed ?negated ?group ?existsIn ?inQuery ?test isPredicate
  case anyOf =>
    intro words operands chain
    rw [Predicate.relocate_anyOf]
    exact .mk (Separated.carries (.already IsConjunction) _ _ chain)
  case allOf =>
    intro words operands chain
    rw [Predicate.relocate_allOf]
    exact .mk (Separated.carries (.already IsNegation) _ _ chain)
  case negated =>
    intro lexeme words predicate not operand
    rw [relocate_opposite]
    exact .negated not operand
  case group =>
    exact fun inside => .group (Enclosed.carries (.already IsPredicate) _ _ inside)
  case existsIn =>
    exact fun announced inside => .existsIn announced (Enclosed.carries nested _ _ inside)
  case inQuery =>
    intro member words words' words'' tested query negated value opposite announced inside
    simp only [List.map_append, List.map_cons]
    exact .inQuery (IsExpr.carries keeps _ _ value) (opposite.carries f) announced
      (Enclosed.carries nested _ _ inside)
  case test =>
    intro words words' tested test value holds
    rw [List.map_append]
    exact .test (IsExpr.carries keeps _ _ value) (IsTest.carries keeps _ _ holds)

theorem IsQuery.carries : Carries f IsQuery IsQuery (Query.relocate f) := by
  intro words query isQuery
  rw [Query.relocate_eq]
  exact IsSelect.carries keeps (IsPredicate.carries keeps) _ _ isQuery

end

end Grammar

end QueryGuard
