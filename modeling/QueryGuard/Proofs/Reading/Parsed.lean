import QueryGuard.Proofs.Reading.Reread
import QueryGuard.Proofs.Reading.Yields
/-!
What the parser returns can be written down, if its decimal numbers are finite, and is of the form
that the grammar knows.
-/

set_option autoImplicit false

namespace QueryGuard

/-! ### Decimal numbers -/

def Leaf.decimal? : Leaf → Option Binary64
  | .literal ⟨.decimal value, _⟩ => some value
  | _ => none

/-- The decimal numbers of an expression. -/
def Expr.decimals (expr : Expr) : List Binary64 := expr.leaves.filterMap Leaf.decimal?

def Test.decimals (test : Test) : List Binary64 := test.exprs.flatMap Expr.decimals

/-- The decimal numbers of a query outside its conditions. -/
def Select.levelDecimals {Condition : Type} (query : Select Condition) : List Binary64 :=
  query.items.flatMap (·.expr.decimals) ++ query.groupBy.flatMap Expr.decimals ++
    query.orderBy.flatMap (·.expr.decimals)

/-- The walk that lists decimal numbers. -/
def decimalWalk : PredicateFold (List Binary64) (List Binary64) where
  and := List.flatten
  or := List.flatten
  not := id
  group := id
  test := Test.decimals
  inQuery := fun tested query _ => tested.decimals ++ query
  existsIn := fun query _ => query
  query := fun query => query.levelDecimals ++ query.conditions.flatten

/-- The decimal numbers of a condition, queries inside it included. -/
def Predicate.decimals : Predicate → List Binary64 := Predicate.fold decimalWalk

/-- The decimal numbers of a query at all levels. -/
def Query.decimals : Query → List Binary64 := Query.fold decimalWalk

/-- None of the numbers is infinite or no number. -/
def AllFinite (numbers : List Binary64) : Prop := ∀ x ∈ numbers, x.IsFinite

theorem AllFinite.mono {numbers numbers' : List Binary64} (finite : AllFinite numbers)
    (among : numbers' ⊆ numbers) : AllFinite numbers' := fun x found => finite x (among found)

theorem Expr.decimals_call (name : Name) (arguments : List Expr) (span : Span) :
    (Expr.call name arguments span).decimals = arguments.flatMap decimals :=
  filterMap_leaves_call _ name arguments span

theorem Query.decimals_eq (query : Query) :
    query.decimals = query.levelDecimals ++ query.conditions.flatMap Predicate.decimals := by
  rw [Query.decimals, Query.fold_eq]
  change (query.map Predicate.decimals).levelDecimals ++
    (query.map Predicate.decimals).conditions.flatten = _
  rw [Select.conditions_map, List.flatMap_def]
  rfl

namespace Predicate

theorem decimals_and (operands : List Predicate) :
    (Predicate.and operands).decimals = operands.flatMap decimals := by
  simp only [decimals, fold_and, decimalWalk, List.flatMap_def]

theorem decimals_or (operands : List Predicate) :
    (Predicate.or operands).decimals = operands.flatMap decimals := by
  simp only [decimals, fold_or, decimalWalk, List.flatMap_def]

end Predicate

open Lexing Parse

/-! ### Expressions -/

/-- The expression can be written down, unless it holds a number that cannot. -/
def Expr.Parsed (expr : Expr) : Prop := AllFinite expr.decimals → expr.Printable

theorem Expr.Parsed.all {exprs : List Expr} (each : ∀ expr ∈ exprs, expr.Parsed)
    (finite : AllFinite (exprs.flatMap Expr.decimals)) : ∀ expr ∈ exprs, expr.Printable :=
  fun expr found => each expr found (finite.mono (subset_flatMap found))

theorem toInt_ofNat {value : Nat} (bound : value ≤ largestInteger) :
    (Int64.ofNat value).toInt = value := by
  rw [← Int64.ofInt_eq_ofNat, Int64.toInt_ofInt_of_le] <;>
  · simp only [largestInteger] at bound
    omega

theorem constant_parsed {token : Token} {value : Literal} {span : Span} (sound : token.Sound)
    (same : constant? token = some value) : (Expr.literal ⟨value, span⟩).Parsed := by
  intro finite
  refine .literal ?_
  cases token with
  | integer number =>
    obtain rfl := Option.some.inj same
    change ((Int64.ofNat number).toInt.natAbs) ≤ largestInteger
    rw [toInt_ofNat sound, Int.natAbs_natCast]
    exact sound
  | decimal number =>
    obtain rfl := Option.some.inj same
    exact finite number (List.mem_singleton.mpr rfl)
  | string text =>
    obtain rfl := Option.some.inj same
    exact trivial
  | keyword keyword =>
    cases keyword <;> first
      | (obtain rfl := Option.some.inj same; exact trivial)
      | (simp [constant?] at same)
  | name => simp [constant?] at same
  | quotedName => simp [constant?] at same
  | parameter => simp [constant?] at same
  | symbol => simp [constant?] at same

theorem negated_parsed {token : Token} {value : Literal} {span : Span} (sound : token.Sound)
    (same : negated? token = some value) : (Expr.literal ⟨value, span⟩).Parsed := by
  intro finite
  refine .literal ?_
  cases token with
  | integer number =>
    obtain rfl := Option.some.inj same
    change number ≤ largestInteger at sound
    change ((Int64.ofInt (-(number : Int))).toInt.natAbs) ≤ largestInteger
    rw [Int64.toInt_ofInt_of_le] <;> simp only [largestInteger] at sound ⊢ <;> omega
  | decimal number =>
    obtain rfl := Option.some.inj same
    exact finite number.neg (List.mem_singleton.mpr rfl)
  | string => simp [negated?] at same
  | keyword => simp [negated?] at same
  | name => simp [negated?] at same
  | quotedName => simp [negated?] at same
  | parameter => simp [negated?] at same
  | symbol => simp [negated?] at same

namespace Parse.Yields

variable {S : Option Token → Prop}

theorem pathFrom (root : Name) : Yields S (Parse.pathFrom root) fun _ => True :=
  bind (measured fun size => more word size) fun _ _ => pure trivial

theorem callOf {name : Name} {distinct : Bool} {arguments : List Expr} {close : Span}
    (plain : Printing.isPlain name.value.toList) (free : Keyword.ofWord? name.value.toList = none)
    (each : ∀ argument ∈ arguments, argument.Parsed) :
    Yields S (Parse.callOf name distinct arguments close) Expr.Parsed := by
  unfold Parse.callOf
  dsimp only
  split
  · rename_i function same
    split
    · exact pure fun finite => .aggregate (each _ List.mem_cons_self finite)
    · exact throw _
  · rename_i custom
    split
    · exact throw _
    · refine pure fun finite => .call ⟨plain, free, custom⟩ (Expr.Parsed.all each ?_)
      rwa [Expr.decimals_call] at finite

theorem arguments {expr : Parse Expr} {name : Name} (each : Yields anywhere expr Expr.Parsed)
    (plain : Printing.isPlain name.value.toList) (free : Keyword.ofWord? name.value.toList = none) :
    Yields S (Parse.arguments expr name) Expr.Parsed := by
  have rest : ∀ distinct arguments, (∀ argument ∈ arguments, Expr.Parsed argument) →
      Yields anywhere (do let close ← closeParen; Parse.callOf name distinct arguments close)
        Expr.Parsed := fun _ _ parsed => expecting fun _ => callOf plain free parsed
  have list : ∀ distinct, Yields anywhere (do
      let arguments ← do
        if (← peek?) = some (.symbol .closeParen) then Pure.pure [] else commaList expr
      let close ← closeParen
      Parse.callOf name distinct arguments close) Expr.Parsed := by
    intro distinct
    apply peek
    intro token _
    dsimp only
    split
    · exact bind (P := (· = [])) (pure rfl) fun _ empty => rest distinct _ (by simp [empty])
    · exact bind (separated each) fun _ parsed => rest distinct _ parsed.2
  exact accept (fun _ => list true) (list false).of_anywhere

theorem negativeNumber (sign : Span) : Yields S (Parse.negativeNumber sign) Expr.Parsed := by
  unfold Parse.negativeNumber
  apply peek
  intro token _
  split
  · rename_i number same
    obtain ⟨first, rfl, negated⟩ := Option.bind_eq_some_iff.mp same
    intro cursor value after sound ahead result
    obtain ⟨lexeme, found, rfl⟩ := Option.map_eq_some_iff.mp ahead
    have read := sound lexeme (List.mem_of_mem_head? found)
    obtain ⟨rfl, rfl⟩ := Prod.mk.inj (Except.ok.inj result)
    exact ⟨sound_next sound, negated_parsed read negated⟩
  · exact fail _ _

theorem expr (depth : Nat) : Yields S (Parse.expr depth) Expr.Parsed := by
  induction depth generalizing S with
  | zero => exact fail _ _
  | succ depth ih =>
    intro cursor value after sound _ result
    simp only [Parse.expr] at result
    split at result
    · rename_i text written span written' span' more left
      have callee : Token.Sound (.name text) := sound ⟨.name text, written, span⟩ (by simp [left])
      exact (arguments ih callee.1 callee.2 : Yields anywhere (Parse.arguments _ ⟨text, span⟩) _) _ value
        after (sound_next (sound_next sound)) trivial result
    · rename_i lexeme more _ left
      have first : lexeme.token.Sound := sound lexeme (by simp [left])
      have path : ∀ text, (Expr.path <$> Parse.pathFrom ⟨text, lexeme.span⟩) cursor.next =
          .ok (value, after) → after.Sound ∧ value.Parsed := fun text result =>
        map (S := anywhere) (Q := Expr.Parsed)
          ((pathFrom _).mono fun path _ _ => .path path) _ value after (sound_next sound) trivial
          result
      split at result
      · exact path _ result
      · exact path _ result
      · rename_i name shown
        obtain ⟨rfl, rfl⟩ := Prod.mk.inj (Except.ok.inj result)
        rw [shown] at first
        exact ⟨sound_next sound, fun _ => .parameter first⟩
      · exact negativeNumber (S := anywhere) _ _ value after (sound_next sound) trivial result
      · cases result
      · split at result
        · rename_i constant same
          obtain ⟨rfl, rfl⟩ := Prod.mk.inj (Except.ok.inj result)
          exact ⟨sound_next sound, constant_parsed first same⟩
        · cases result
    · cases result

theorem expression : Yields S Parse.expression Expr.Parsed := measured fun size => expr size

end Parse.Yields

/-! ### Conditions -/

/-- The condition of a query at the given level can be written down, unless it holds a number that
cannot, and queries inside it are within the limit. -/
structure Predicate.Parsed (limit level : Nat) (predicate : Predicate) : Prop where
  printable : AllFinite predicate.decimals → predicate.Printable
  within : level + predicate.nesting ≤ limit

/-- The query at the given level can be written down, unless it holds a number that cannot, and is
of the form that the grammar knows. -/
structure Query.Parsed (limit level : Nat) (query : Query) : Prop where
  printable : AllFinite query.decimals → query.Printable
  within : level + query.nesting ≤ limit
  reread : query.reread = query

/-- A condition that is read without AND and OR outside of parentheses. -/
structure ParsedUnary (limit level : Nat) (predicate : Predicate) : Prop extends
    predicate.Parsed limit level where
  reading : predicate.reading = [[predicate]]

/-- A condition that is read without OR outside of parentheses. -/
structure ParsedConjunction (limit level : Nat) (predicate : Predicate) : Prop extends
    predicate.Parsed limit level where
  reading : predicate.reading.map Predicate.allOf = [predicate]

structure ParsedCondition (limit level : Nat) (predicate : Predicate) : Prop extends
    predicate.Parsed limit level where
  reread : predicate.reread = predicate

section

variable {limit level : Nat}

theorem ParsedUnary.isConjunction {predicate : Predicate} (parsed : ParsedUnary limit level predicate) :
    ParsedConjunction limit level predicate :=
  ⟨parsed.toParsed, by rw [parsed.reading]; rfl⟩

theorem ParsedConjunction.isCondition {predicate : Predicate}
    (parsed : ParsedConjunction limit level predicate) : ParsedCondition limit level predicate :=
  ⟨parsed.toParsed, by rw [Predicate.reread, Predicate.ofDisjuncts, parsed.reading]; rfl⟩

theorem parsed_test {test : Test} (inside : level ≤ limit)
    (exprs : ∀ expr ∈ test.exprs, expr.Parsed) (shape : test.Shaped) :
    ParsedUnary limit level (.test test) where
  printable := fun finite => .test ⟨Expr.Parsed.all exprs finite, shape⟩
  within := inside
  reading := rfl

theorem parsed_group {predicate : Predicate} (parsed : ParsedCondition limit level predicate) :
    ParsedUnary limit level predicate.group where
  printable := fun finite => .group (parsed.printable finite)
  within := parsed.within
  reading := by rw [Predicate.reading_group, parsed.reread]

theorem parsed_not {predicate : Predicate} (parsed : ParsedUnary limit level predicate)
    (other : ∀ query, predicate ≠ .existsIn query false) :
    ParsedUnary limit level predicate.not where
  printable := fun finite => .not other (parsed.printable finite)
  within := parsed.within
  reading := by rw [Predicate.reading_not, parsed.reading]; rfl

theorem parsed_existsIn {query : Query} (parsed : query.Parsed limit (level + 1))
    (negated : Bool) : ParsedUnary limit level (.existsIn query negated) where
  printable := fun finite =>
    have printable := parsed.printable finite
    .existsIn printable.level printable.each
  within := by
    have within := parsed.within
    change level + (query.nesting + 1) ≤ limit
    omega
  reading := by rw [Predicate.reading_existsIn, parsed.reread]

theorem parsed_inQuery {tested : Expr} {query : Query} (expr : tested.Parsed)
    (parsed : query.Parsed limit (level + 1)) (negated : Bool) :
    ParsedUnary limit level (.inQuery tested query negated) where
  printable := fun finite =>
    have printable := parsed.printable (finite.mono (List.subset_append_right _ _))
    .inQuery (expr (finite.mono (List.subset_append_left _ _))) printable.level printable.each
  within := by
    have within := parsed.within
    change level + (query.nesting + 1) ≤ limit
    omega
  reading := by rw [Predicate.reading_inQuery, parsed.reread]

theorem flatMap_eq_self {α : Type} {f : α → List α} {items : List α}
    (each : ∀ x ∈ items, f x = [x]) : items.flatMap f = items := by
  induction items with
  | nil => rfl
  | cons first rest ih =>
    rw [List.flatMap_cons, each first List.mem_cons_self,
      ih fun x found => each x (List.mem_cons_of_mem _ found)]
    rfl

/-- Conditions that AND joins. -/
theorem parsed_allOf {operands : List Predicate} (nonempty : operands ≠ [])
    (each : ∀ operand ∈ operands, ParsedUnary limit level operand) :
    ParsedConjunction limit level (.allOf operands) := by
  rcases operands with _ | ⟨first, _ | ⟨second, rest⟩⟩
  · exact absurd rfl nonempty
  · exact (each first List.mem_cons_self).isConjunction
  · have inside : level ≤ limit := Nat.le_of_add_right_le (each first List.mem_cons_self).within
    refine ⟨⟨fun finite => .and (by simp) fun operand found => (each operand found).printable ?_,
      ?_⟩, ?_⟩
    · change AllFinite (Predicate.and _).decimals at finite
      rw [Predicate.decimals_and] at finite
      exact finite.mono (subset_flatMap found)
    · have below := Predicate.nesting_allOf_le (n := limit - level) fun operand found => by
        have within := (each operand found).within
        omega
      change level + (Predicate.allOf _).nesting ≤ limit
      omega
    · have conjuncts : (first :: second :: rest).flatMap (fun operand =>
          Predicate.conjunctsOf operand.reading) = first :: second :: rest :=
        flatMap_eq_self fun operand found => by rw [(each operand found).reading]; rfl
      change (Predicate.and _).reading.map Predicate.allOf = _
      rw [Predicate.reading_and, conjuncts]
      rfl

/-- Conjunctions that OR joins. -/
theorem parsed_anyOf {operands : List Predicate} (nonempty : operands ≠ [])
    (each : ∀ operand ∈ operands, ParsedConjunction limit level operand) :
    ParsedCondition limit level (.anyOf operands) := by
  rcases operands with _ | ⟨first, _ | ⟨second, rest⟩⟩
  · exact absurd rfl nonempty
  · exact (each first List.mem_cons_self).isCondition
  · have inside : level ≤ limit := Nat.le_of_add_right_le (each first List.mem_cons_self).within
    refine ⟨⟨fun finite => .or (by simp) fun operand found => (each operand found).printable ?_,
      ?_⟩, ?_⟩
    · change AllFinite (Predicate.or _).decimals at finite
      rw [Predicate.decimals_or] at finite
      exact finite.mono (subset_flatMap found)
    · have below := Predicate.nesting_anyOf_le (n := limit - level) fun operand found => by
        have within := (each operand found).within
        omega
      change level + (Predicate.anyOf _).nesting ≤ limit
      omega
    · have disjuncts : ((first :: second :: rest).flatMap Predicate.reading).map Predicate.allOf =
          first :: second :: rest := by
        rw [List.map_flatMap]
        exact flatMap_eq_self fun operand found => (each operand found).reading
      change (Predicate.or _).reread = _
      rw [Predicate.reread, Predicate.ofDisjuncts, Predicate.reading_or, if_neg (by simp),
        disjuncts]

end

end QueryGuard
