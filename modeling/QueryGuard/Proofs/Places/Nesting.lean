import QueryGuard.Proofs.Grammar.Deciding
import QueryGuard.Proofs.Lexing.Slices
import QueryGuard.Proofs.Places.Construct
import QueryGuard.Proofs.Places.Faults
/-!
The places of a query are nested as its constructs are, and stand in the order of the text.

A construct reaches from its first lexeme to its last one, however its place is computed: by merging
the places of parts, with the last lexeme read, or of a sign with a number.
-/

set_option autoImplicit false

namespace QueryGuard

open Lexing

namespace Grammar

/-! ### Constructs reach over their lexemes -/

theorem IsIdentifier.place {words : List Lexeme} {name : Name}
    (isIdentifier : IsIdentifier words name) : ∃ lexeme, words = [lexeme] ∧ name.span = lexeme.span := by
  cases isIdentifier <;> exact ⟨_, rfl, rfl⟩

theorem IsWord.place {words : List Lexeme} {name : Name} (isWord : IsWord words name) :
    ∃ lexeme, words = [lexeme] ∧ name.span = lexeme.span := by
  cases isWord with
  | identifier holds => exact holds.place
  | reserved => exact ⟨_, rfl, rfl⟩

/-- With each attribute behind a dot the place of a path goes on to the end of the attribute. -/
theorem Repeated.reaches {previous : Lexeme} {words : List Lexeme} {attributes : List Name}
    {start first middle stop : Nat}
    (others : Repeated (Behind (.symbol .dot) IsWord) words attributes)
    (stretch : Stretch (previous :: words) first stop)
    (place : previous.span = .between first middle) (begun : start ≤ first) :
    attributes.foldl (fun span name => span.merge name.span) (Span.between start middle) =
      .between start stop := by
  induction others generalizing previous first middle with
  | none =>
    obtain ⟨_, rfl⟩ := Span.between.inj (place.symm.trans stretch.of_single)
    rfl
  | more item others ih =>
    obtain ⟨_, isWord⟩ := item
    obtain ⟨lexeme, rfl, located⟩ := isWord.place
    obtain ⟨_, first', placed, long, behind, stretch⟩ := stretch.uncons
    obtain ⟨_, start', _, long', behind', stretch⟩ := stretch.uncons
    obtain ⟨stop', long'', located'⟩ := stretch.head
    obtain ⟨_, rfl⟩ := Span.between.inj (place.symm.trans placed)
    rw [List.foldl_cons, located, located', Span.between_merge_between, Nat.min_eq_left (by omega),
      Nat.max_eq_right (by omega)]
    exact ih stretch located' (by omega)

variable {words : List Lexeme} {start stop : Nat}

theorem IsPath.reaches {path : Path} (isPath : IsPath words path)
    (stretch : Stretch words start stop) : path.span = .between start stop := by
  cases isPath with
  | mk first others =>
    obtain ⟨lexeme, rfl, place⟩ := first.place
    obtain ⟨middle, _, located⟩ := stretch.head
    rw [place, located]
    exact others.reaches stretch located (Nat.le_refl _)

theorem IsLiteral.reaches {literal : Located Literal} (isLiteral : IsLiteral words literal)
    (stretch : Stretch words start stop) : literal.span = .between start stop := by
  cases isLiteral with
  | negativeInteger | negativeDecimal => exact stretch.extent
  | _ => exact stretch.of_single

theorem IsExpr.reaches {expr : Expr} (isExpr : IsExpr words expr)
    (stretch : Stretch words start stop) : expr.span = .between start stop := by
  -- A call is placed by its name and its last parenthesis.
  have called : ∀ {callee closing : Lexeme} (inside : List Lexeme),
      Stretch (callee :: (inside ++ [closing])) start stop →
      callee.span.merge closing.span = .between start stop := by
    intro callee closing inside stretch
    rw [← stretch.extent, extent, lastPlace_append]
    rfl
  cases isExpr with
  | path holds => exact holds.reaches stretch
  | literal holds => exact holds.reaches stretch
  | parameter same => exact stretch.of_single
  | @aggregate _ opening _ words words' =>
    rw [← List.append_assoc] at stretch
    exact called (opening :: (words ++ words')) stretch
  | @call _ opening _ words => exact called (opening :: words) stretch

theorem IsSelectItem.reaches {item : SelectItem} (isItem : IsSelectItem words item)
    (stretch : Stretch words start stop) : item.span = .between start stop := by
  cases isItem with
  | bare value => exact value.reaches stretch
  | labelled value as name =>
    obtain ⟨lexeme, rfl, place⟩ := name.place
    obtain ⟨middle, middle', first, between, rest⟩ := stretch.split value.begins.ne_nil (by simp)
    obtain ⟨start', behind, last⟩ := rest.right (List.cons_ne_nil _ _)
    have long := first.lt
    have long' := last.lt
    rw [SelectItem.span, value.reaches first, place, last.of_single, Span.between_merge_between,
      Nat.min_eq_left (by omega), Nat.max_eq_right (by omega)]

theorem IsOrderItem.ne_nil {item : OrderItem} (isItem : IsOrderItem words item) : words ≠ [] := by
  cases isItem with
  | ascending value _ | descending value _ => simp [value.begins.ne_nil]

theorem IsOrderItem.reaches {item : OrderItem} (isItem : IsOrderItem words item)
    (stretch : Stretch words start stop) : item.span = .between start stop := by
  -- The place goes from the expression to the last lexeme, which may be its own last one.
  have merged : ∀ {words words' : List Lexeme} {expr : Expr}, IsExpr words expr →
      Stretch (words ++ words') start stop →
      expr.span.merge (lastPlace expr.span (words ++ words')) = .between start stop := by
    intro words words' expr value stretch
    obtain ⟨middle, shorter, first⟩ := stretch.left value.begins.ne_nil
    obtain ⟨last, behind, found⟩ := stretch.lastPlace expr.span
    have long := first.lt
    rw [found, value.reaches first, Span.between_merge_between, Nat.min_eq_left behind,
      Nat.max_eq_right shorter]
  cases isItem with
  | ascending value asc => exact merged value stretch
  | descending value desc =>
    have whole := merged value stretch
    rwa [lastPlace_append] at whole

/-- The place of a construct is that of all of its lexemes. -/
theorem IsConstruct.reaching : Reaching IsConstruct Construct.span := by
  intro words construct isConstruct
  cases isConstruct with
  | query holds =>
    obtain ⟨_, _, rfl, _⟩ := holds.starts
    refine ⟨List.cons_ne_nil _ _, fun stretch => ?_⟩
    cases holds
    exact stretch.extent
  | item holds => exact ⟨holds.begins.ne_nil, fun stretch => holds.reaches stretch⟩
  | join holds =>
    refine ⟨holds.begins.ne_nil, fun stretch => ?_⟩
    cases holds
    exact stretch.extent
  | order holds => exact ⟨holds.ne_nil, fun stretch => holds.reaches stretch⟩
  | expr holds => exact ⟨holds.begins.ne_nil, fun stretch => holds.reaches stretch⟩
  | path holds =>
    exact ⟨(IsExpr.path holds).begins.ne_nil, fun stretch => holds.reaches stretch⟩
  | word => exact ⟨List.cons_ne_nil _ _, fun stretch => stretch.of_single⟩

end Grammar

/-- The text stands at the place in the source, behind another one; it is not empty. -/
structure Span.Marks (source : String) (span : Span) (before text : String) : Prop where
  split : ∃ after, source = before ++ text ++ after
  isOf : span.IsOf before text

/-- A construct has a place in the source, of at least one character. What stands directly inside it
has its place in there, one behind the other in the order of the text. -/
structure Construct.Nests (source : String) (construct : Construct) : Prop where
  placed : ∃ before text, construct.span.Marks source before text
  inside : ∀ part ∈ construct.parts, part.span.Within construct.span
  ordered : construct.parts.Pairwise fun first second => first.span.Before second.span

/-- The text at the place of a construct has just the lexemes that the construct is derived from. -/
theorem Query.parse_sliced {source : String} {depth : Nat} {query : Query} {construct : Construct}
    (parsed : Query.parse source depth = .ok query)
    (holds : (Construct.query query).Holds construct) :
    ∃ words before body, Grammar.IsConstruct words construct ∧ Run (byteLength before) body words ∧
      Grammar.Stretch words (byteLength before) (byteLength before + byteLength body) ∧
      construct.span.Marks source (String.ofList before) (String.ofList body) := by
  obtain ⟨lexemes, tokens, isQuery, _⟩ := ((Query.parse_derives depth).2.2 source query).mp parsed
  obtain ⟨words, within, derived⟩ := (Grammar.IsConstruct.query isQuery).inner holds
  obtain ⟨nonempty, reaches⟩ := Grammar.IsConstruct.reaching derived
  obtain ⟨before, body, after, split, run, stretch⟩ :=
    (tokenize_iff_scanned.mp tokens).slice within nonempty
  refine ⟨words, before, body, derived, run, stretch, ⟨String.ofList after, ?_⟩, ?_⟩
  · rw [← String.ofList_append, ← String.ofList_append, List.append_assoc, ← split,
      String.ofList_toList]
  · rw [reaches stretch]
    exact Span.isOf_ofList run.ne_nil.1

/-- The constructs of a query are nested in the source as they are in the tree. An error has its
place in the source too, between two of its characters. -/
theorem Query.parse_nests (source : String) (depth : Nat) :
    match Query.parse source depth with
    | .ok query => ∀ construct, (Construct.query query).Holds construct → construct.Nests source
    | .error error => ∃ before text after : String, source = before ++ text ++ after ∧
        error.span = .between before.utf8ByteSize (before.utf8ByteSize + text.utf8ByteSize) := by
  cases result : Query.parse source depth with
  | error error => exact (Query.parse_error_cuts result).divides
  | ok query =>
    intro construct holds
    obtain ⟨words, before, body, derived, _, stretch, marks⟩ := Query.parse_sliced result holds
    obtain ⟨ordered, inside⟩ := derived.parts.places Grammar.IsConstruct.reaching stretch
    rw [← (Grammar.IsConstruct.reaching derived).2 stretch] at inside
    exact ⟨⟨_, _, marks⟩, inside, ordered⟩

end QueryGuard
