import QueryGuard.Proofs.Lexing.Tiling
import QueryGuard.Proofs.Reading.Reread
/-!
Expressions that were not read from a text. Their names, strings and integers are any; they are read back from
their text unless one of their integers is the smallest one, whose digits are no integer without the sign.
-/

set_option autoImplicit false

namespace QueryGuard

/-- The names of the expression are such that it can be written down, and none of its constants is a decimal
number. -/
inductive Expr.Spellable : Expr → Prop where
  | path (path : Path) : Spellable (.path path)
  | literal {constant : Located Literal} (exact : ∀ x, constant.value ≠ .decimal x) :
      Spellable (.literal constant)
  | parameter {name : Name} (marker : Lexing.IsMarker name.value.toList) :
      Spellable (.parameter name)
  | aggregate {function : Aggregate} {distinct : Bool} {argument : Expr} {span : Span}
      (inner : Spellable argument) : Spellable (.aggregate function distinct argument span)
  | call {name : Name} {arguments : List Expr} {span : Span} (callee : IsFunction name.value)
      (each : ∀ argument ∈ arguments, Spellable argument) :
      Spellable (.call name arguments span)

def Leaf.integer? : Leaf → Option Int64
  | .literal ⟨.integer value, _⟩ => some value
  | _ => none

/-- The integers among the constants of an expression. -/
def Expr.integers (expr : Expr) : List Int64 := expr.leaves.filterMap Leaf.integer?

theorem Expr.integers_path (path : Path) : (Expr.path path).integers = [] := rfl

theorem Expr.mem_integers_literal {constant : Located Literal} {value : Int64} :
    value ∈ (Expr.literal constant).integers ↔ constant.value = .integer value := by
  obtain ⟨constant, span⟩ := constant
  cases constant with
  | integer found =>
    change value ∈ [found] ↔ Literal.integer found = .integer value
    rw [List.mem_singleton, Literal.integer.injEq, eq_comm]
  | _ => exact iff_of_false List.not_mem_nil Literal.noConfusion

theorem Expr.integers_parameter (name : Name) : (Expr.parameter name).integers = [] := rfl

theorem Expr.integers_aggregate (function : Aggregate) (distinct : Bool) (argument : Expr)
    (span : Span) : (Expr.aggregate function distinct argument span).integers = argument.integers :=
  rfl

theorem Expr.integers_call (name : Name) (arguments : List Expr) (span : Span) :
    (Expr.call name arguments span).integers = arguments.flatMap integers :=
  filterMap_leaves_call _ name arguments span

theorem Literal.printable_integer_iff {value : Int64} :
    (Literal.integer value).Printable ↔ value ≠ Int64.minValue := by
  change value.toInt.natAbs ≤ 2 ^ 63 - 1 ↔ _
  have least := value.le_toInt
  have most := value.toInt_lt
  have same : value = Int64.minValue ↔ value.toInt = -2 ^ 63 := by
    rw [← Int64.toInt_inj]
    rfl
  rw [ne_eq, same]
  omega

namespace Lexing

/-! ### The fault of a text -/

/-- Why the scan of a text fails, if it does. -/
def faultOf (text : List Char) : Option LexicalFault := (scan 0 text).failure.map LexicalError.fault

theorem fault_scan (offset : Nat) (text : List Char) :
    (scan offset text).failure.map LexicalError.fault = faultOf text := by
  have same (offset' : Nat) : (scan offset text).failure.map LexicalError.fault =
      (scan offset' text).failure.map LexicalError.fault := by
    induction text using piece_induction generalizing offset offset' with
    | nil =>
      rw [scan, scan]
    | gap text after piece ih =>
      rw [scan_gap piece, scan_gap piece]
      exact ih _ _
    | token text after token piece ih =>
      rw [scan_token piece, scan_token piece]
      exact ih _ _
    | fault c tail after fault starts =>
      rw [scan, scan, starts]
      rfl
  exact same 0

theorem faultOf_gap {text after : List Char} (piece : Piece text after .gap) :
    faultOf (text ++ after) = faultOf after := by
  rw [faultOf, scan_gap piece, fault_scan]

theorem faultOf_token {text after : List Char} {token : Token}
    (piece : Piece text after (.token token)) : faultOf (text ++ after) = faultOf after := by
  rw [faultOf, scan_token piece, fault_scan]

theorem faultOf_fault {c : Char} {rest : List Char} {fault : LexicalFault} {length : Nat}
    (starts : front c rest = (.fault fault, length)) : faultOf (c :: rest) = some fault := by
  rw [faultOf, scan, starts]
  rfl

theorem faultOf_space {c : Char} (space : isSpace c) (text : List Char) :
    faultOf (c :: text) = faultOf text := by
  obtain ⟨run, after, rfl, all, stops⟩ := exists_run isSpace text
  have whole : faultOf (c :: (run ++ after)) = faultOf after :=
    faultOf_gap (.spaces (List.forall_mem_cons.mpr ⟨space, all⟩) stops)
  rw [whole]
  cases run with
  | nil => rfl
  | cons d run => exact (faultOf_gap (.spaces all stops)).symm

/-! ### Texts with the smallest integer -/

/-- The smallest integer without its sign is out of range. -/
def digitsTooLarge : LexicalFault := .numberOutOfRange "9223372036854775808"

/-- The scan of a text, if something may follow it that starts so, comes to an integer that is too large, or
goes on behind the text. -/
def Runs (edge : Char → Bool) (text : List Char) (halts : Prop) : Prop :=
  ∀ after, Starts edge after →
    (halts → faultOf (text ++ after) = some digitsTooLarge) ∧
      (¬ halts → faultOf (text ++ after) = faultOf after)

namespace Runs

variable {E E' : Char → Bool} {text text' : List Char} {halts halts' : Prop}

theorem nil : Runs E [] False := fun _ _ => ⟨nofun, fun _ => rfl⟩

theorem mono (runs : Runs E text halts) (stronger : ∀ c, E' c → E c) : Runs E' text halts :=
  fun after starts => runs after (starts.mono stronger)

theorem any (runs : Runs anything text halts) : Runs E text halts := runs.mono fun _ _ => rfl

theorem of_iff (runs : Runs E text halts) (same : halts' ↔ halts) : Runs E text halts' := by
  rwa [propext same]

/-- The first of two texts that halts is where the scan of both halts. -/
theorem join (first : Runs E text halts) (second : Runs E' text' halts')
    (meets : ∀ after, Starts E' after → Starts E (text' ++ after)) :
    Runs E' (text ++ text') (halts ∨ halts') := by
  intro after starts
  obtain ⟨stops, passes⟩ := first _ (meets after starts)
  obtain ⟨stops', passes'⟩ := second after starts
  rw [List.append_assoc]
  by_cases halt : halts
  · exact ⟨fun _ => stops halt, fun neither => absurd (.inl halt) neither⟩
  · rw [passes halt]
    exact ⟨fun either => stops' (either.resolve_left halt),
      fun neither => passes' fun halt' => neither (.inr halt')⟩

/-- Texts are put together where the second starts as the first has to end. -/
theorem append (first : Runs E text halts) {c : Char} {rest : List Char}
    (second : Runs E' (c :: rest) halts') (meets : E c) :
    Runs E' (text ++ c :: rest) (halts ∨ halts') :=
  first.join second fun after _ => Starts.cons meets (rest ++ after)

/-- Behind a text that may end anywhere there may be any other. -/
theorem appendAny (first : Runs anything text halts) (second : Runs E text' halts') :
    Runs E (text ++ text') (halts ∨ halts') :=
  first.join second fun _ _ _ _ => rfl

theorem token {token : Token} (piece : ∀ after, Starts E after → Piece text after (.token token)) :
    Runs E text False :=
  fun after starts => ⟨nofun, fun _ => faultOf_token (piece after starts)⟩

theorem space (runs : Runs E text halts) : Runs E (' ' :: text) halts := by
  intro after starts
  rw [List.cons_append, faultOf_space rfl]
  exact runs after starts

end Runs

theorem runs_sign {text : List Char} {symbol : Symbol} {edge : Char → Bool}
    (sign : Sign text symbol edge) : Runs edge text False :=
  .token fun _ starts => .sign sign starts

/-- A word of letters and further characters of names. -/
theorem runs_plain {name : List Char} (plain : Printing.isPlain name) :
    Runs (fun c => !isNamePart c) name False := by
  cases name with
  | nil => cases plain
  | cons c rest =>
    rw [Printing.isPlain, Bool.and_eq_true, List.all_eq_true] at plain
    exact .token fun _ starts => .word plain.1 plain.2 starts

theorem runs_quoted {quote : Char} {token : String → Token} (quotes : Quotation quote token)
    (text : List Char) : Runs (fun c => c ≠ quote) (Text.quoted quote text) False := by
  refine .token fun after starts => .quoted quotes fun same => ?_
  simpa using starts quote same

theorem runs_name (name : String) : Runs endsName (Printing.name name) False := by
  rw [Printing.name]
  split
  · rename_i plain
    rw [Bool.and_eq_true] at plain
    exact (runs_plain plain.1).mono fun c ends => (Bool.and_eq_true_iff.mp ends).1
  · exact (runs_quoted .name _).mono fun c ends => (Bool.and_eq_true_iff.mp ends).2

theorem runs_attributes (names : List Name) :
    Runs endsName (names.flatMap fun part => '.' :: Printing.name part.value) False := by
  induction names with
  | nil => exact .nil
  | cons first others ih =>
    have inner : Runs endsName (Printing.name first.value ++
        others.flatMap fun part => '.' :: Printing.name part.value) (False ∨ False) := by
      refine (runs_name first.value).join ih fun after starts => ?_
      cases others with
      | nil => exact starts
      | cons second rest => exact Starts.cons (by decide) _
    exact ((runs_sign .dot).appendAny inner).of_iff (by simp)

theorem runs_path (path : Path) : Runs endsName path.print False := by
  refine ((runs_name path.root.value).join (runs_attributes path.attributes)
    fun after starts => ?_).of_iff (by simp)
  cases path.attributes with
  | nil => exact starts
  | cons first others => exact Starts.cons (by decide) _

/-! ### Constants -/

/-- The digits of an integer in range. -/
theorem runs_digits {value : Nat} (bound : value ≤ largestInteger) :
    Runs endsWord (Nat.toDigits 10 value) False := by
  obtain ⟨c, rest, shown, digit, others, rfl⟩ := exists_digits value
  rw [shown]
  refine .token fun after starts => .integer digit others (starts.mono not_isDigit_of_endsWord)
    (fun more same => ?_) bound
  exact absurd (starts '.' (same ▸ rfl)) (by decide)

theorem runs_signed {text : List Char} {halts : Prop} (negative : Bool)
    (digits : ∀ c ∈ text, c.isDigit) (nonempty : text ≠ []) (runs : Runs endsWord text halts) :
    Runs endsWord (Binary64.signed negative text) halts := by
  cases negative with
  | false => exact runs
  | true =>
    obtain ⟨c, rest, rfl⟩ := List.exists_cons_of_ne_nil nonempty
    have meets : decide (c ≠ '-') := by
      refine decide_eq_true ?_
      rintro rfl
      exact absurd (digits '-' List.mem_cons_self) (by decide)
    exact ((runs_sign .minus).append runs meets).of_iff (false_or _).symm.to_iff

theorem runs_too_large : Runs endsWord (Nat.toDigits 10 (2 ^ 63)) True := by
  have shown : Nat.toDigits 10 (2 ^ 63) = '9' :: "223372036854775808".toList := by decide
  have digits : ∀ d ∈ "223372036854775808".toList, d.isDigit := List.all_eq_true.mp rfl
  refine fun after starts => ⟨fun _ => ?_, nofun⟩
  rw [shown, List.cons_append]
  refine faultOf_fault ((front_digit rfl _).trans ((number_digits digits starts).trans (if_neg ?_)))
  decide

theorem runs_integer (value : Int64) :
    Runs endsWord (Literal.integer value).print (value = Int64.minValue) := by
  have text : (Literal.integer value).print =
      Binary64.signed (decide (value.toInt < 0)) (Nat.toDigits 10 value.toInt.natAbs) :=
    toList_toString_int value.toInt
  rw [text]
  refine runs_signed _ (fun c found => Nat.isDigit_of_mem_toDigits (by decide) (by decide) found)
    Nat.toDigits_ne_nil ?_
  by_cases smallest : value = Int64.minValue
  · subst smallest
    exact runs_too_large.of_iff (iff_of_true rfl trivial)
  · exact (runs_digits (Literal.printable_integer_iff.mpr smallest)).of_iff (iff_of_false smallest id)

theorem runs_literal {constant : Literal} (exact : ∀ x, constant ≠ .decimal x) :
    Runs endsWord constant.print (constant = .integer Int64.minValue) := by
  have reserved (name : List Char) (plain : Printing.isPlain name) : Runs endsWord name False :=
    (runs_plain plain).mono endsPart_of_endsWord
  cases constant with
  | null => exact (reserved "null".toList rfl).of_iff (by simp)
  | bool value =>
    cases value with
    | false => exact (reserved "false".toList rfl).of_iff (by simp)
    | true => exact (reserved "true".toList rfl).of_iff (by simp)
  | integer value => exact (runs_integer value).of_iff (by simp)
  | decimal value => exact absurd rfl (exact value)
  | string value =>
    exact ((runs_quoted .string value.toList).mono (of_endsWord rfl)).of_iff (by simp)

/-! ### Expressions -/

theorem runs_parameter {name : List Char} (marker : IsMarker name) :
    Runs endsWord (':' :: name) False := by
  cases name with
  | nil => exact marker.elim
  | cons c rest =>
    exact .token fun after starts => .marker marker.1 marker.2 (starts.mono (of_endsWord rfl))

theorem runs_parenthesized {E : Char → Bool} {text : List Char} {halts : Prop}
    (runs : Runs endsWord text halts) : Runs E (Printing.parenthesized text) halts :=
  ((runs_sign .openParen).appendAny (runs.append (runs_sign .closeParen).any rfl)).of_iff (by simp)

theorem runs_commaList {exprs : List Expr}
    (each : ∀ expr ∈ exprs, Runs endsWord expr.print (Int64.minValue ∈ expr.integers)) :
    Runs endsWord (Printing.commaList (exprs.map Expr.print))
      (Int64.minValue ∈ exprs.flatMap Expr.integers) := by
  induction exprs with
  | nil => exact Runs.nil.of_iff (by simp)
  | cons first rest ih =>
    obtain ⟨runs, others⟩ := List.forall_mem_cons.mp each
    cases rest with
    | nil => simpa [Printing.commaList] using runs
    | cons second rest =>
      have between := (runs_sign .comma).appendAny (ih others).space
      refine (runs.append between rfl).of_iff ?_
      simp

end Lexing

open Lexing

namespace Expr.Spellable

variable {expr : Expr}

/-- The scan of a printed expression comes to an integer that is too large exactly at the smallest one. -/
theorem runs (spellable : expr.Spellable) :
    Runs endsWord expr.print (Int64.minValue ∈ expr.integers) := by
  induction spellable with
  | path path =>
    rw [integers_path]
    exact ((runs_path path).mono endsName_of_endsWord).of_iff (iff_of_false List.not_mem_nil id)
  | literal exact => exact (runs_literal exact).of_iff mem_integers_literal
  | parameter marker =>
    rw [integers_parameter]
    exact (runs_parameter marker).of_iff (iff_of_false List.not_mem_nil id)
  | @aggregate function distinct argument span _ ih =>
    have inside : Runs endsWord
        ((if distinct then "distinct ".toList else []) ++ argument.print)
        (Int64.minValue ∈ argument.integers) := by
      cases distinct with
      | false => exact ih
      | true =>
        have distinct : Runs (fun c => !isNamePart c) "distinct".toList False := runs_plain rfl
        exact (distinct.append ih.space rfl).of_iff (by simp)
    have name : Runs (fun c => !isNamePart c) function.spelling.toList False :=
      runs_plain (by cases function <;> decide)
    rw [integers_aggregate]
    exact (name.append (runs_parenthesized inside) rfl).of_iff (by simp)
  | @call name arguments span callee _ ih =>
    rw [Expr.print_call, integers_call]
    exact ((runs_plain callee.plain).append (runs_parenthesized (runs_commaList ih)) rfl).of_iff
      (by simp)

/-- Without the smallest integer the expression can be written down. -/
theorem printable (spellable : expr.Spellable) (bounded : Int64.minValue ∉ expr.integers) :
    expr.Printable := by
  induction spellable with
  | path path => exact .path path
  | @literal constant exact =>
    rw [mem_integers_literal] at bounded
    refine .literal ?_
    cases shown : constant.value with
    | integer value =>
      refine Literal.printable_integer_iff.mpr fun smallest => bounded ?_
      rw [shown, smallest]
    | decimal value => exact absurd shown (exact value)
    | _ => trivial
  | parameter marker => exact .parameter marker
  | aggregate inner ih => exact .aggregate (ih bounded)
  | call callee each ih =>
    rw [integers_call] at bounded
    exact .call callee fun argument member => ih argument member fun found =>
      bounded (List.mem_flatMap.mpr ⟨argument, member, found⟩)

end Expr.Spellable

/-- The query that selects an expression, and has no conditions. -/
def Query.selecting (expr : Expr) : Query :=
  { Query.ofEntity "X" "x" none with items := [⟨expr, none, .synthetic⟩] }

theorem Query.print_selecting (expr : Expr) :
    (Query.selecting expr).print = "select ".toList ++ (expr.print ++ " from X x".toList) := by
  have item : SelectItem.print ⟨expr, none, .synthetic⟩ = expr.print := List.append_nil _
  have root : " from ".toList ++ Range.print ⟨.synthetic "X", .synthetic "x"⟩ =
      " from X x".toList := by decide
  rw [print_eq, ← root]
  dsimp only [selecting, ofEntity, Select.print, Select.map, Printing.clause, Printing.listClause,
    Printing.commaList, Option.map_none]
  simp only [List.map_nil, List.map_cons, item, List.flatMap_nil, List.isEmpty_nil, ↓reduceIte,
    List.append_nil, Bool.false_eq_true, List.append_assoc, List.intercalate_singleton]

theorem Query.text_selecting (expr : Expr) :
    (Query.selecting expr).text = "select " ++ expr.text ++ " from X x" := by
  rw [text, print_selecting, String.ofList_append, String.ofList_append, String.ofList_toList,
    String.ofList_toList, String.append_assoc]
  rfl

theorem Query.printable_selecting {expr : Expr} (printable : expr.Printable) :
    (Query.selecting expr).Printable := by
  have level := levelPrintable_ofEntity "X" "x" none
  exact ⟨⟨List.cons_ne_nil _ _, List.forall_mem_singleton.mpr printable, level.joins, level.groupBy,
    level.orderBy, level.limit, level.offset⟩, nofun⟩

/-- A text with a fault is no query. -/
theorem Query.parse_of_faultOf {text : List Char} {fault : LexicalFault}
    (fails : faultOf text = some fault) (depth : Nat) :
    ∃ span, Query.parse (String.ofList text) depth = .error (.lexical ⟨fault, span⟩) := by
  obtain ⟨⟨found, span⟩, failure, rfl⟩ := Option.map_eq_some_iff.mp fails
  refine ⟨span, ?_⟩
  rw [Query.parse, Parse.run, tokenize_ofList, failure]

/-- The text of an expression is read as the same expression, unless it has the smallest integer: the lexer
refuses the digits of that. -/
theorem Expr.Spellable.parse_selecting {expr : Expr} (spellable : expr.Spellable) (depth : Nat) :
    if Int64.minValue ∈ expr.integers then
      ∃ span, Query.parse ("select " ++ expr.text ++ " from X x") depth =
        .error (.lexical ⟨.numberOutOfRange "9223372036854775808", span⟩)
    else
      ∃ query item, Query.parse ("select " ++ expr.text ++ " from X x") depth = .ok query ∧
        query.items = [item] ∧ item.expr.unplaced = expr.unplaced := by
  rw [← Query.text_selecting]
  split
  · rename_i smallest
    refine Query.parse_of_faultOf ?_ depth
    have select : Runs (fun c => !isNamePart c) "select".toList False := runs_plain rfl
    have runs := select.append spellable.runs.space rfl
    have halts := (runs " from X x".toList (.cons rfl _)).1 (.inr smallest)
    rwa [Query.print_selecting]
  · rename_i bounded
    obtain ⟨query, parsed, same⟩ :=
      (Query.printable_selecting (spellable.printable bounded)).parse_text (Nat.zero_le depth)
    have items : query.items.map SelectItem.unplaced = [⟨expr.unplaced, none, .synthetic⟩] := by
      rw [Query.unplaced_eq] at same
      exact congrArg Select.items same
    obtain ⟨item, only, found⟩ := List.map_eq_singleton_iff.mp items
    exact ⟨query, item, parsed, only, congrArg SelectItem.expr found⟩

/-- The smallest integer, and the next one as an argument beside an attribute without a name. -/
theorem Expr.Spellable.parse_selecting_smallest :
    let smallest : Expr := .literal (.synthetic (.integer Int64.minValue))
    let call : Expr := .call (.synthetic "least") [.ofPath "select" [""],
      .literal (.synthetic (.integer (Int64.minValue + 1)))] .synthetic
    (∃ span, Query.parse ("select " ++ smallest.text ++ " from X x") 100 =
        .error (.lexical ⟨.numberOutOfRange "9223372036854775808", span⟩)) ∧
      ∃ query item, Query.parse ("select " ++ call.text ++ " from X x") 100 = .ok query ∧
        query.items = [item] ∧ item.expr.unplaced = call.unplaced := by
  intro smallest call
  have refused : smallest.Spellable := .literal nofun
  have read : call.Spellable := by
    refine .call ⟨by decide, by decide, by decide⟩ (List.forall_mem_cons.mpr ⟨.path _, ?_⟩)
    exact List.forall_mem_singleton.mpr (.literal nofun)
  have among : Int64.minValue ∈ smallest.integers := List.mem_singleton.mpr rfl
  have bounded : Int64.minValue ∉ call.integers := by decide
  have result := refused.parse_selecting 100
  have result' := read.parse_selecting 100
  rw [if_pos among] at result
  rw [if_neg bounded] at result'
  exact ⟨result, result'⟩

end QueryGuard
