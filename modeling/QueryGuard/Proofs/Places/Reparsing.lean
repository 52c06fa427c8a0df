import QueryGuard.Proofs.Places.Nesting
import QueryGuard.Proofs.Places.Relocation
/-!
The text at the place of a query, a path or an expression is one by itself, and is read as the same
construct: only that all places in it are as far back as the text was behind the start of the
source.

An expression is no text by itself for the parser. It is read as the only item of a small query.
-/

set_option autoImplicit false

namespace QueryGuard

open Lexing

/-- The place in a text that stands further behind by some bytes. -/
def Span.moved (distance : Nat) : Span → Span
  | .synthetic => .synthetic
  | .between start stop => .between (start + distance) (stop + distance)

theorem Span.moved_eq (distance : Nat) : moved distance = shifted 0 distance := by
  funext span
  cases span <;> rfl

theorem Span.moved_zero : moved 0 = id := by
  funext span
  cases span <;> rfl

theorem Lexing.Run.moved {offset : Nat} {text : List Char} {words : List Lexeme}
    (run : Run offset text words) (distance : Nat) :
    Run (distance + offset) text (words.map (Lexeme.relocate (Span.moved distance))) := by
  have start : Run (0 + offset) text words := by rwa [Nat.zero_add]
  rw [Span.moved_eq]
  exact start.shifted distance

/-! ### Queries inside -/

section

variable (f : Span → Span)

theorem Query.nesting_relocate_of {query : Query}
    (each : ∀ condition ∈ query.conditions, (condition.relocate f).nesting = condition.nesting) :
    (Query.relocate f query).nesting = query.nesting := by
  have conditions : (Query.relocate f query).conditions =
      query.conditions.map (Predicate.relocate f) := by
    rw [relocate_eq, ← Select.conditions_map]
    simp only [Select.conditions, Select.relocate, List.filterMap_map]
    rfl
  rw [nesting_eq, nesting_eq, conditions, List.map_map]
  exact congrArg (List.foldl max 0) (List.map_congr_left each)

theorem Predicate.nesting_relocate (predicate : Predicate) :
    (predicate.relocate f).nesting = predicate.nesting := by
  induction predicate using Predicate.induction with
  | and operands ih =>
    rw [relocate_and, nesting_and, nesting_and, List.map_map]
    exact congrArg (List.foldl max 0) (List.map_congr_left ih)
  | or operands ih =>
    rw [relocate_or, nesting_or, nesting_or, List.map_map]
    exact congrArg (List.foldl max 0) (List.map_congr_left ih)
  | not operand ih => exact ih
  | group operand ih => exact ih
  | test test => rfl
  | inQuery tested query negated ih => exact congrArg Nat.succ (Query.nesting_relocate_of f ih)
  | existsIn query negated ih => exact congrArg Nat.succ (Query.nesting_relocate_of f ih)

theorem Query.nesting_relocate (query : Query) :
    (Query.relocate f query).nesting = query.nesting :=
  nesting_relocate_of f fun condition _ => condition.nesting_relocate f

end

/-- The levels of queries inside a construct. -/
def Construct.nesting : Construct → Nat
  | query found => found.nesting
  | join found => (found.condition.map Predicate.nesting).getD 0
  | _ => 0

/-- What stands in a condition is not nested more deeply. -/
theorem Predicate.nesting_constructs {predicate : Predicate} {part : Construct}
    (member : part ∈ predicate.constructs) : part.nesting ≤ predicate.nesting := by
  induction predicate using Predicate.induction with
  | and operands ih =>
    rw [constructs_and] at member
    obtain ⟨operand, among, found⟩ := List.mem_flatMap.mp member
    exact Nat.le_trans (ih operand among found) (nesting_le_and among)
  | or operands ih =>
    rw [constructs_or] at member
    obtain ⟨operand, among, found⟩ := List.mem_flatMap.mp member
    exact Nat.le_trans (ih operand among found) (nesting_le_or among)
  | not operand ih => exact ih member
  | group operand ih => exact ih member
  | test test =>
    have flat : ∀ part ∈ test.constructs, part.nesting = 0 := by
      cases test <;> simp [Test.constructs, Test.exprs, Construct.nesting, Construct.ofLocated]
    exact Nat.le_of_eq (flat part member)
  | inQuery tested query negated =>
    obtain rfl | rfl : part = .expr tested ∨ part = .query query := by
      simpa [constructs] using member
    · exact Nat.zero_le _
    · exact Nat.le_succ _
  | existsIn query negated =>
    rw [List.mem_singleton.mp member]
    exact Nat.le_succ _

namespace Construct

variable {part : Construct} {n : Nat}

theorem nesting_le_of_flat (flat : part.nesting = 0) : part.nesting ≤ n := by
  rw [flat]
  exact Nat.zero_le n

theorem nesting_le_of_map {α : Type} {list : List α} {f : α → Construct}
    (flat : ∀ value, (f value).nesting = 0) (member : part ∈ list.map f) : part.nesting ≤ n := by
  obtain ⟨value, _, rfl⟩ := List.mem_map.mp member
  exact nesting_le_of_flat (flat value)

theorem nesting_le_of_cons {α : Type} {first : Construct} {list : List α} {f : α → Construct}
    (flat : first.nesting = 0) (flats : ∀ value, (f value).nesting = 0)
    (member : part ∈ first :: list.map f) : part.nesting ≤ n := by
  rcases List.mem_cons.mp member with rfl | member
  · exact nesting_le_of_flat flat
  · exact nesting_le_of_map flats member

theorem nesting_condition {condition : Option Predicate}
    (member : part ∈ condition.toList.flatMap Predicate.constructs) :
    ∃ predicate ∈ condition, part.nesting ≤ predicate.nesting := by
  obtain ⟨predicate, found, inside⟩ := List.mem_flatMap.mp member
  exact ⟨predicate, Option.mem_toList.mp found, Predicate.nesting_constructs inside⟩

theorem nesting_join_parts {join : Join Predicate} (member : part ∈ (Construct.join join).parts) :
    part.nesting ≤ (Construct.join join).nesting := by
  rcases List.mem_cons.mp member with rfl | member
  · cases join.target <;> exact Nat.zero_le _
  rcases List.mem_cons.mp member with rfl | member
  · exact nesting_le_of_flat rfl
  obtain ⟨predicate, found, below⟩ := nesting_condition member
  rw [nesting, Option.mem_def.mp found]
  exact below

theorem nesting_query_parts {query : Query} (member : part ∈ (Construct.query query).parts) :
    part.nesting ≤ query.nesting := by
  have condition : ∀ {condition : Option Predicate}, (∀ predicate ∈ condition,
      predicate ∈ query.conditions) → part ∈ condition.toList.flatMap Predicate.constructs →
      part.nesting ≤ query.nesting := by
    intro condition known among
    obtain ⟨predicate, found, below⟩ := nesting_condition among
    exact Nat.le_trans below (Query.nesting_le (known predicate found))
  simp only [parts, List.mem_append] at member
  rcases member with items | root | joins | filter | groups | having' | orders | limit | offset
  · exact nesting_le_of_map (fun _ => rfl) items
  · have named : part ∈ .ofLocated query.root.entity :: [query.root.name].map .ofLocated := root
    exact nesting_le_of_cons rfl (fun _ => rfl) named
  · obtain ⟨join, known, rfl⟩ := List.mem_map.mp joins
    show (join.condition.map Predicate.nesting).getD 0 ≤ query.nesting
    cases found : join.condition with
    | none => exact Nat.zero_le _
    | some predicate => exact Query.nesting_le (Select.mem_of_join known found)
  · exact condition (fun _ => Select.mem_of_filter) filter
  · exact nesting_le_of_map (fun _ => rfl) groups
  · exact condition (fun _ => Select.mem_of_having) having'
  · exact nesting_le_of_map (fun _ => rfl) orders
  · exact nesting_le_of_map (fun _ => rfl) limit
  · exact nesting_le_of_map (fun _ => rfl) offset

/-- Outside of conditions, queries and joins stand in queries only. -/
theorem nesting_parts {construct : Construct} (member : part ∈ construct.parts) :
    part.nesting ≤ construct.nesting := by
  cases construct with
  | query query => exact nesting_query_parts member
  | join join => exact nesting_join_parts member
  | item item => exact nesting_le_of_cons rfl (fun _ => rfl) member
  | path chain => exact nesting_le_of_cons rfl (fun _ => rfl) member
  | order item =>
    obtain rfl := List.mem_singleton.mp member
    exact nesting_le_of_flat rfl
  | expr expr =>
    cases expr with
    | call => exact nesting_le_of_cons rfl (fun _ => rfl) member
    | path | aggregate =>
      obtain rfl := List.mem_singleton.mp member
      exact nesting_le_of_flat rfl
    | literal | parameter => cases member
  | word => cases member

theorem Holds.nesting_le {construct inner : Construct} (holds : construct.Holds inner) :
    inner.nesting ≤ construct.nesting := by
  induction holds with
  | self => exact Nat.le_refl _
  | inside direct _ ih => exact Nat.le_trans ih (nesting_parts direct)

end Construct

/-! ### Texts that are read again -/

namespace Grammar

/-- A step that reads all lexemes reads one value. -/
theorem Takes.unique {α : Type} {step : Parse α} {words : List Lexeme} {value value' : α}
    (takes : Takes (.point 0) step words [] value)
    (takes' : Takes (.point 0) step words [] value') : value = value' :=
  (Prod.mk.inj (Except.ok.inj ((takes 0).symm.trans (takes' 0)))).1

theorem IsExpr.unique {words : List Lexeme} {expr expr' : Expr} (isExpr : IsExpr words expr)
    (isExpr' : IsExpr words expr') : expr = expr' :=
  (Takes.expression isExpr (.nil _)).unique (Takes.expression isExpr' (.nil _))

theorem Takes.path {words : List Lexeme} {path : Path} (isPath : IsPath words path) :
    Takes (.point 0) Parse.path words [] path := by
  cases isPath with
  | mk first others => exact (Takes.name first).bind (Takes.pathFrom others (.nil _))

theorem IsPath.unique {words : List Lexeme} {path path' : Path} (isPath : IsPath words path)
    (isPath' : IsPath words path') : path = path' :=
  (Takes.path isPath).unique (Takes.path isPath')

/-- What a stretch of text is derived as at one offset, it is at each other, at the same distances
from there. -/
theorem Carries.again {α : Type} {item : Rule α} {relocate : (Span → Span) → α → α}
    (carries : ∀ {f}, Span.KeepsMerging f → Carries f item item (relocate f))
    (unique : ∀ {words value value'}, item words value → item words value' → value = value')
    {text : List Char} {words : List Lexeme} {value : α} {old : Nat} (run : Run old text words)
    (holds : item words value) (new : Nat) :
    ∃ words' value', Run new text words' ∧ item words' value' ∧
      relocate (Span.moved old) value' = relocate (Span.moved new) value := by
  have keeps : ∀ distance, Span.KeepsMerging (Span.moved distance) := by
    intro distance
    rw [Span.moved_eq]
    exact Span.keepsMerging_shifted 0 distance
  have here : Run (old + 0) text words := run
  have there : Run new text (words.map (Lexeme.relocate (Span.shifted old new))) := here.shifted new
  have holds' := carries (Span.keepsMerging_shifted old new) words value holds
  -- At the sum of the two offsets the text has the same lexemes, from wherever it is moved there.
  have same := (there.moved old).unique (Nat.add_comm new old ▸ run.moved new)
  have moved := carries (keeps old) _ _ holds'
  rw [same] at moved
  exact ⟨_, _, there, holds', unique moved (carries (keeps new) _ _ holds)⟩

/-- A text that stands alone is moved back from the start. -/
theorem Carries.again_alone {α : Type} {item : Rule α} {relocate : (Span → Span) → α → α}
    (carries : ∀ {f}, Span.KeepsMerging f → Carries f item item (relocate f))
    (unique : ∀ {words value value'}, item words value → item words value' → value = value')
    {text : List Char} {words : List Lexeme} {value : α} {old : Nat} (run : Run old text words)
    (holds : item words value) :
    ∃ words' value', Run 0 text words' ∧ item words' value' ∧
      relocate (Span.moved old) value' = value := by
  obtain ⟨words', value', run', holds', same⟩ := Carries.again carries unique run holds 0
  have still := carries (f := id) (fun _ _ => rfl) words value holds
  have fixed : Lexeme.relocate id = id := rfl
  rw [fixed, List.map_id] at still
  rw [Span.moved_zero] at same
  exact ⟨words', value', run', holds', same.trans (unique still holds)⟩

end Grammar

/-! ### Slices of a source -/

namespace Lexing

/-- The text of an expression between the words of a query that selects just it. -/
def selecting (body : List Char) : List Char :=
  "select".toList ++ ' ' ::
    (body ++ ' ' :: ("from".toList ++ ' ' :: ("X".toList ++ ' ' :: "x".toList)))

theorem ofList_selecting (body : List Char) :
    String.ofList (selecting body) = "select " ++ String.ofList body ++ " from X x" := by
  rw [← String.toList_inj]
  simp [selecting]

/-- The lexemes of the text stand seven bytes behind the start, and those of the small query around
them. -/
theorem Run.selecting {body : List Char} {words : List Lexeme} (run : Run 7 body words) :
    ∃ select start entity name : Lexeme, select.token = .keyword .select ∧
      start.token = .keyword .from ∧ entity.token = .name "X" ∧ name.token = .name "x" ∧
      Scanned 0 (Lexing.selecting body) (select :: (words ++ [start, entity, name])) := by
  have last : ∀ offset, ∃ name : Lexeme, name.token = .name "x" ∧
      Scanned offset "x".toList [name] :=
    fun offset => ⟨_, rfl, (Run.last (.word (c := 'x') rfl (by simp) (.nil _))).scanned⟩
  obtain ⟨name, named, scanned⟩ := last _
  obtain ⟨entity, meant, scanned⟩ := scanned.behind_word 'X' [] rfl (by simp)
  obtain ⟨start, begun, scanned⟩ :=
    scanned.behind_word 'f' ['r', 'o', 'm'] rfl (List.all_eq_true.mp rfl)
  have scanned := run.spaced (.cons rfl _) scanned.behind_blank
  obtain ⟨select, announced, scanned⟩ :=
    Scanned.behind_word 's' ['e', 'l', 'e', 'c', 't'] rfl (List.all_eq_true.mp rfl) scanned
  exact ⟨select, start, entity, name, announced, begun, meant, named, scanned⟩

end Lexing

/-- A small query around an expression selects just this expression. -/
theorem Grammar.IsExpr.selected {words : List Lexeme} {expr : Expr} (isExpr : IsExpr words expr)
    {select start entity name : Lexeme} (announced : select.token = .keyword .select)
    (begun : start.token = .keyword .from) (meant : entity.token = .name "X")
    (named : name.token = .name "x") :
    ∃ query, IsQuery (select :: (words ++ [start, entity, name])) query ∧
      query.items = [⟨expr, none, expr.span⟩] ∧ query.nesting = 0 := by
  have items : Separated (.symbol .comma) IsSelectItem (words ++ []) [⟨expr, none, expr.span⟩] :=
    .mk (.bare isExpr) .none
  have range : Behind (.keyword .from) IsRange [start, entity, name]
      ⟨⟨"X", entity.span⟩, ⟨"x", name.span⟩⟩ :=
    .mk begun (.mk (.identifier (.plain meant)) .absent (.plain named))
  exact ⟨_, .mk announced .absent items range .none .absent .absent .absent .absent .absent .absent
    (by simp), rfl, rfl⟩

/-- In the source of a query, the text at the place of each query, path and expression is read as
the same one again, with all places moved by the distance between where the text stood and where it
stands. -/
theorem Query.parse_slices {source : String} {depth : Nat} {query : Query}
    (parsed : Query.parse source depth = .ok query) :
    (∀ inner, (Construct.query query).Holds (.query inner) → ∃ before text inner',
        inner.span.Marks source before text ∧ Query.parse text depth = .ok inner' ∧
        Query.relocate (.moved before.utf8ByteSize) inner' = inner) ∧
      (∀ path, (Construct.query query).Holds (.path path) → ∃ before text path',
        path.span.Marks source before text ∧ Path.parse text = .ok path' ∧
        path'.relocate (.moved before.utf8ByteSize) = path) ∧
      ∀ expr, (Construct.query query).Holds (.expr expr) → ∃ before text,
        expr.span.Marks source before text ∧ ∀ depth', ∃ whole expr',
          Query.parse ("select " ++ text ++ " from X x") depth' = .ok whole ∧
          whole.items = [⟨expr', none, expr'.span⟩] ∧
          expr'.relocate (.moved before.utf8ByteSize) = expr.relocate (.moved 7) := by
  refine ⟨fun inner holds => ?_, fun path holds => ?_, fun expr holds => ?_⟩
  · obtain ⟨words, before, body, derived, run, _, marks⟩ := Query.parse_sliced parsed holds
    obtain ⟨isQuery⟩ := derived
    obtain ⟨words', inner', run', isQuery', same⟩ :=
      Grammar.Carries.again_alone Grammar.IsQuery.carries Grammar.IsQuery.unique run isQuery
    have within : inner'.nesting ≤ depth := by
      obtain ⟨_, _, _, shallow⟩ := ((Query.parse_derives depth).2.2 source query).mp parsed
      rw [← Query.nesting_relocate (.moved (byteLength before)), same]
      exact Nat.le_trans holds.nesting_le shallow
    refine ⟨_, _, inner', marks, ?_, by rwa [utf8ByteSize_ofList]⟩
    exact ((Query.parse_derives depth).2.2 _ _).mpr
      ⟨words', tokenize_ofList_of_scanned run'.scanned, isQuery', within⟩
  · obtain ⟨words, before, body, derived, run, _, marks⟩ := Query.parse_sliced parsed holds
    cases derived with
    | path isPath =>
      obtain ⟨words', path', run', isPath', same⟩ :=
        Grammar.Carries.again_alone Grammar.IsPath.carries Grammar.IsPath.unique run isPath
      refine ⟨_, _, path', marks, ?_, by rwa [utf8ByteSize_ofList]⟩
      rw [Path.parse, Parse.run, tokenize_ofList_of_scanned run'.scanned]
      exact (Grammar.Takes.path isPath').readAll
  · obtain ⟨words, before, body, derived, run, _, marks⟩ := Query.parse_sliced parsed holds
    cases derived with
    | expr isExpr =>
      obtain ⟨words', expr', run', isExpr', same⟩ :=
        Grammar.Carries.again Grammar.IsExpr.carries Grammar.IsExpr.unique run isExpr 7
      obtain ⟨select, start, entity, name, announced, begun, meant, named, scanned⟩ :=
        run'.selecting
      obtain ⟨whole, isQuery, items, flat⟩ := isExpr'.selected announced begun meant named
      refine ⟨_, _, marks, fun depth' => ⟨whole, expr', ?_, items, by rwa [utf8ByteSize_ofList]⟩⟩
      rw [← ofList_selecting]
      exact ((Query.parse_derives depth').2.2 _ _).mpr
        ⟨_, tokenize_ofList_of_scanned scanned, isQuery, flat ▸ Nat.zero_le depth'⟩

/-- There are white space and comments in a path and around a query inside, in quotes a name that is
longer than its text, and the sign of a number. -/
theorem Query.parse_slices_commented : ∃ query inner item path,
    Query.parse "select a . /* ' */ \"x\"\"y\" from A a where exists ( -- (\n select - 1 from B b)"
      1 = .ok query ∧
    query.subqueries = [inner] ∧ query.items = [item] ∧ item.expr = .path path ∧
    (∃ before text inner', inner.span.Marks
        "select a . /* ' */ \"x\"\"y\" from A a where exists ( -- (\n select - 1 from B b)" before text ∧
      Query.parse text 1 = .ok inner' ∧
      Query.relocate (.moved before.utf8ByteSize) inner' = inner) ∧
    (∃ before text path', path.span.Marks
        "select a . /* ' */ \"x\"\"y\" from A a where exists ( -- (\n select - 1 from B b)" before text ∧
      Path.parse text = .ok path' ∧ path'.relocate (.moved before.utf8ByteSize) = path) ∧
    ∃ before text, item.expr.span.Marks
        "select a . /* ' */ \"x\"\"y\" from A a where exists ( -- (\n select - 1 from B b)" before text ∧
      ∀ depth', ∃ whole expr',
        Query.parse ("select " ++ text ++ " from X x") depth' = .ok whole ∧
        whole.items = [⟨expr', none, expr'.span⟩] ∧
        expr'.relocate (.moved before.utf8ByteSize) = item.expr.relocate (.moved 7) := by
  have runs : (Query.parse
      "select a . /* ' */ \"x\"\"y\" from A a where exists ( -- (\n select - 1 from B b)"
      1).toOption.map (fun query => (query.subqueries.length, query.items.map (·.expr.path?.isSome))) =
      some (1, [true]) := by
    decide +kernel
  generalize "select a . /* ' */ \"x\"\"y\" from A a where exists ( -- (\n select - 1 from B b)" =
    source at runs
  cases parsed : Query.parse source 1 with
  | error error =>
    rw [parsed] at runs
    cases runs
  | ok query =>
    rw [parsed] at runs
    obtain ⟨one, shape⟩ := Prod.mk.inj (Option.some.inj runs)
    obtain ⟨inner, one⟩ := List.length_eq_one_iff.mp one
    obtain ⟨item, single, isPath⟩ := List.map_eq_singleton_iff.mp shape
    obtain ⟨path, same⟩ : ∃ path, item.expr = .path path := by
      cases found : item.expr with
      | path path => exact ⟨path, rfl⟩
      | _ => rw [found] at isPath; cases isPath
    obtain ⟨queries, paths, exprs⟩ := Query.parse_slices parsed
    have first : Construct.item item ∈ (Construct.query query).parts := by
      simp [Construct.parts, single]
    have selected : (Construct.query query).Holds (.expr item.expr) :=
      .inside first (.inside List.mem_cons_self (.self _))
    have path_eq : Construct.path path ∈ (Construct.expr item.expr).parts := by
      rw [same]
      exact List.mem_cons_self
    have along : (Construct.query query).Holds (.path path) :=
      .inside first (.inside List.mem_cons_self (.inside path_eq (.self _)))
    exact ⟨query, inner, item, path, rfl, one, single, same,
      queries inner (Construct.holds_subquery (by simp [one])), paths path along,
      exprs item.expr selected⟩

end QueryGuard
