import QueryGuard.Proofs.Reading.Spelling
import QueryGuard.Proofs.Reading.Steps
import QueryGuard.Proofs.Reading.Unplaced
import QueryGuard.Syntax.Parser
/-!
Printed expressions are read back.
-/

set_option autoImplicit false

namespace QueryGuard

/-- A number that is neither infinite nor no number at all. -/
def Binary64.IsFinite (x : Binary64) : Prop := ∃ value, x = .finite value

instance (x : Binary64) : Decidable x.IsFinite :=
  match x with
  | .finite value => isTrue ⟨value, rfl⟩
  | .infinite _ => isFalse fun ⟨_, same⟩ => by cases same
  | .nan => isFalse fun ⟨_, same⟩ => by cases same

/-- The constant can be written down. -/
def Literal.Printable : Literal → Prop
  | .integer value => value.toInt.natAbs ≤ Lexing.largestInteger
  | .decimal value => value.IsFinite
  | _ => True

/-- The name may be called: it is no word of the language and no aggregate. -/
structure IsFunction (name : String) : Prop where
  plain : Printing.isPlain name.toList
  free : Keyword.ofWord? name.toList = none
  custom : Aggregate.ofName? name = none

/-- The expression can be written down. -/
inductive Expr.Printable : Expr → Prop where
  | path (path : Path) : Printable (.path path)
  | literal {constant : Located Literal} (good : constant.value.Printable) :
      Printable (.literal constant)
  | parameter {name : Name} (marker : Lexing.IsMarker name.value.toList) :
      Printable (.parameter name)
  | aggregate {function : Aggregate} {distinct : Bool} {argument : Expr} {span : Span}
      (inner : Printable argument) : Printable (.aggregate function distinct argument span)
  | call {name : Name} {arguments : List Expr} {span : Span} (callee : IsFunction name.value)
      (each : ∀ argument ∈ arguments, Printable argument) :
      Printable (.call name arguments span)

open Lexing Parse

/-- Texts with a separator between them: what is read from each of them is joined. -/
theorem spelled_separated {α β : Type} {holds : List Word → β → Prop} {separator : Word}
    {gap : List Char} (between : Spelled anything gap [separator])
    (ends : ∀ after, Starts endsWord (gap ++ after)) {join : β → β → β} {nothing : β}
    (alone : ∀ value, join value nothing = value)
    (joined : ∀ {words words' value value'}, holds words value → holds words' value' →
      holds (words ++ separator :: words') (join value value'))
    (print : α → List Char) (values : α → β) {items : List α} (nonempty : items ≠ [])
    (each : ∀ x ∈ items, ∃ words, Spelled endsWord (print x) words ∧ holds words (values x)) :
    ∃ words, Spelled endsWord (gap.intercalate (items.map print)) words ∧
      holds words ((items.map values).foldr join nothing) := by
  induction items with
  | nil => exact absurd rfl nonempty
  | cons first rest ih =>
    obtain ⟨words, spelled, reads⟩ := each first List.mem_cons_self
    cases rest with
    | nil =>
      refine ⟨words, ?_, ?_⟩
      · simpa only [List.map_cons, List.map_nil, List.intercalate_singleton] using spelled
      · simpa only [List.map_cons, List.map_nil, List.foldr_cons, List.foldr_nil, alone] using reads
    | cons second rest =>
      obtain ⟨words', spelled', reads'⟩ := ih (List.cons_ne_nil _ _) fun x found =>
        each x (List.mem_cons_of_mem _ found)
      refine ⟨words ++ separator :: words', ?_, joined reads reads'⟩
      rw [List.map_cons, List.map_cons, List.intercalate_cons_cons, List.append_assoc]
      apply spelled.join (between.appendAny spelled')
      intro after _
      rw [List.append_assoc]
      exact ends _

/-- Texts with a separator between them, each of them a chain, make one chain. -/
theorem spelled_chain {α β : Type} {item : List Word → β → Prop} {separator : Word}
    {gap : List Char} (between : Spelled anything gap [separator])
    (ends : ∀ after, Starts endsWord (gap ++ after))
    (print : α → List Char) (values : α → List β) {items : List α} (nonempty : items ≠ [])
    (each : ∀ x ∈ items, ∃ words,
      Spelled endsWord (print x) words ∧ Chain item separator words (values x)) :
    ∃ words, Spelled endsWord (gap.intercalate (items.map print)) words ∧
      Chain item separator words (items.flatMap values) := by
  have appended : (items.map values).foldr (· ++ ·) [] = items.flatMap values := by
    clear each nonempty
    induction items with
    | nil => rfl
    | cons first rest ih => rw [List.map_cons, List.foldr_cons, List.flatMap_cons, ih]
  rw [← appended]
  exact spelled_separated between ends List.append_nil Chain.append print values nonempty each

/-- Texts with commas between them. -/
theorem spelled_commaList {α : Type} {item : List Word → α → Prop} {print : α → List Char}
    {items : List α} (nonempty : items ≠ [])
    (each : ∀ x ∈ items, ∃ words, Spelled endsWord (print x) words ∧ item words x) :
    ∃ words, Spelled endsWord (Printing.commaList (items.map print)) words ∧
      Chain item Symbol.comma.word words items := by
  have between : Spelled anything [',', ' '] [Symbol.comma.word] :=
    spelled_comma.appendAny (Spelled.nil anything).space
  obtain ⟨words, spelled, chain⟩ := spelled_chain between
    (fun after => Starts.cons (c := ',') rfl (' ' :: after)) print (fun x => [x]) nonempty
    fun x found => by
      obtain ⟨words, spelled, holds⟩ := each x found
      exact ⟨words, spelled, .one holds⟩
  exact ⟨words, spelled, by simpa only [List.flatMap_singleton'] using chain⟩

/-- A text in parentheses. -/
theorem spelled_parenthesized {E : Char → Bool} {text : List Char} {words : List Word}
    (spelled : Spelled endsWord text words) :
    Spelled E (Printing.parenthesized text)
      (Symbol.openParen.word :: (words ++ [Symbol.closeParen.word])) :=
  (spelled_openParen.appendAny (spelled.append spelled_closeParen rfl)).any

namespace Parse.Reads

variable {word : Word} {words rest : List Word}

/-- A step that looks at the next lexeme only. -/
theorem of_lexeme {α : Type} {step : Parse α} {good : α → Prop}
    (reads : ∀ cursor lexeme lexemes, cursor.rest = lexeme :: lexemes → lexeme.word = word →
      ∃ value, step cursor = .ok (value, cursor.next) ∧ good value) :
    Reads step [word] rest good := by
  intro cursor ahead
  obtain ⟨lexeme, lexemes, left, same, behind⟩ := first_lexeme ahead
  obtain ⟨value, result, holds⟩ := reads cursor lexeme lexemes left same
  exact ⟨value, cursor.next, result, behind, holds⟩

theorem name {text : String} {expected : Expectation} (isName : word.IsName text) :
    Reads (Parse.name expected) [word] rest (·.value = text) := by
  apply of_lexeme
  rintro cursor ⟨token, written, span⟩ lexemes left rfl
  refine ⟨⟨text, span⟩, ?_, rfl⟩
  rcases isName with same | same <;>
    · change token = _ at same
      simp only [Parse.name, left, nameOf?, same]

theorem word_of_standsFor {text : String} {expected : Expectation}
    (stands : word.StandsFor text) : Reads (Parse.word expected) [word] rest (·.value = text) := by
  apply of_lexeme
  rintro cursor ⟨token, written, span⟩ lexemes left rfl
  refine ⟨⟨text, span⟩, ?_, rfl⟩
  rcases stands with (same | same) | ⟨keyword, same, shown⟩
  · change token = _ at same
    simp only [Parse.word, left, List.head?_cons, Option.bind_some, wordOf?, nameOf?, same]
  · change token = _ at same
    simp only [Parse.word, left, List.head?_cons, Option.bind_some, wordOf?, nameOf?, same]
  · change token = _ at same
    change written = _ at shown
    simp only [Parse.word, left, List.head?_cons, Option.bind_some, wordOf?, same, shown]

end Parse.Reads

/-- The attributes of a path: dots and names. -/
theorem reads_attributes (names : List Name) :
    ∃ words, Spelled endsName (names.flatMap fun part => '.' :: Printing.name part.value) words ∧
      (names = [] ∧ words = [] ∨ ∃ more, words = Symbol.dot.word :: more) ∧
      ∀ bound rest, words.length ≤ bound → Follows (fun token => token ≠ .symbol .dot) rest →
        Reads (more (.symbol .dot) (Parse.word .attributeName) bound) words rest
          fun found => found.map Located.unplaced = names.map Located.unplaced := by
  induction names with
  | nil =>
    refine ⟨[], Spelled.nil endsName, .inl ⟨rfl, rfl⟩, ?_⟩
    intro bound rest _ follows
    exact (Reads.no_more follows bound).mono fun found empty => by rw [empty]
  | cons first others ih =>
    obtain ⟨word, isName, spelled⟩ := spelled_name first.value
    obtain ⟨words, spelled', _, reads⟩ := ih
    have meets : ∀ after, Starts endsName after → Starts endsName
        ((others.flatMap fun part => '.' :: Printing.name part.value) ++ after) := by
      intro after starts
      cases others with
      | nil => exact starts
      | cons second rest => exact Starts.cons (by decide) _
    refine ⟨Symbol.dot.word :: word :: words, ?_, .inr ⟨_, rfl⟩, ?_⟩
    · rw [List.flatMap_cons]
      exact spelled_dot.appendAny (spelled.join spelled' meets)
    · intro bound rest enough follows
      simp only [List.length_cons] at enough
      obtain ⟨bound, rfl⟩ : ∃ smaller, bound = smaller + 1 := ⟨bound - 1, by omega⟩
      rw [Parse.more]
      apply Reads.accepted rfl
      apply Reads.head (Reads.word_of_standsFor (.inl isName))
      intro name found
      refine Reads.all (reads bound rest (by omega) follows) fun names same => Reads.pure ?_
      simp only [List.map_cons, same, Located.unplaced, found]

/-- A path: its first name, and the dots and names after it. -/
theorem reads_path (path : Path) :
    ∃ word words, word.IsName path.root.value ∧ Spelled endsName path.print (word :: words) ∧
      (path.attributes = [] ∧ words = [] ∨ ∃ more, words = Symbol.dot.word :: more) ∧
      ∀ root rest, root.value = path.root.value →
        Follows (fun token => token ≠ .symbol .dot) rest →
        Reads (pathFrom root) words rest (·.unplaced = path.unplaced) := by
  obtain ⟨word, isName, spelled⟩ := spelled_name path.root.value
  obtain ⟨words, spelled', dotted, reads⟩ := reads_attributes path.attributes
  refine ⟨word, words, isName, spelled.join spelled' fun after starts => ?_, dotted, ?_⟩
  · cases path.attributes with
    | nil => exact starts
    | cons first others => exact Starts.cons (by decide) _
  · intro root rest same follows
    refine Reads.all (Reads.measured fun size enough => reads size rest enough follows)
      fun names found => Reads.pure ?_
    rw [Path.unplaced, Path.unplaced, found, Located.unplaced, same, ← Located.unplaced]

/-- The tokens that an expression may start with. -/
def startsExpr : Token → Bool
  | .name _ | .quotedName _ | .parameter _ | .string _ | .integer _ | .decimal _ => true
  | .symbol .minus | .keyword .true | .keyword .false | .keyword .null => true
  | _ => false

/-- Whether an expression ends in front of the token. -/
def endsExpr (token : Token) : Bool := token ≠ .symbol .dot && token ≠ .symbol .openParen

/-- The words are read as the expression. -/
structure IsExpr (words : List Word) (expr : Expr) : Prop where
  starts : ∃ word more, words = word :: more ∧ startsExpr word.token
  reads : ∀ depth rest, words.length ≤ depth → Follows endsExpr rest →
    Reads (Parse.expr depth) words rest (·.unplaced = expr.unplaced)

/-- The words are read with any bound on the nesting but zero, if the first word is. -/
theorem IsExpr.of_succ {word : Word} {words : List Word} {expr : Expr}
    (starts : startsExpr word.token)
    (reads : ∀ depth rest, words.length ≤ depth → Follows endsExpr rest →
      Reads (Parse.expr (depth + 1)) (word :: words) rest (·.unplaced = expr.unplaced)) :
    IsExpr (word :: words) expr where
  starts := ⟨word, words, rfl, starts⟩
  reads := by
    intro depth rest enough follows
    rw [List.length_cons] at enough
    obtain ⟨depth, rfl⟩ : ∃ smaller, depth = smaller + 1 := ⟨depth - 1, by omega⟩
    exact reads depth rest (by omega) follows

/-- An expression of one word. -/
theorem IsExpr.of_lexeme {word : Word} {expr : Expr} (starts : startsExpr word.token)
    (reads : ∀ depth cursor lexeme lexemes, cursor.rest = lexeme :: lexemes →
      lexeme.word = word →
      ∃ value, Parse.expr (depth + 1) cursor = .ok (value, cursor.next) ∧
        value.unplaced = expr.unplaced) : IsExpr [word] expr :=
  .of_succ starts fun depth _ _ _ => Reads.of_lexeme (reads depth)

theorem isExpr_parameter {word : Word} {name : Name} (same : word.token = .parameter name.value) :
    IsExpr [word] (.parameter name) := by
  refine .of_lexeme (by rw [same]; rfl) ?_
  rintro depth cursor ⟨token, written, span⟩ lexemes left rfl
  change token = _ at same
  refine ⟨.parameter ⟨name.value, span⟩, ?_, rfl⟩
  simp only [Parse.expr, left, same]

/-- A constant of one word. -/
theorem isExpr_constant {word : Word} {constant : Located Literal} (starts : startsExpr word.token)
    (same : constant? word.token = some constant.value) : IsExpr [word] (.literal constant) := by
  refine .of_lexeme starts ?_
  rintro depth cursor ⟨token, written, span⟩ lexemes left rfl
  change startsExpr token at starts
  change constant? token = _ at same
  refine ⟨.literal ⟨constant.value, span⟩, ?_, rfl⟩
  cases token with
  | symbol symbol => cases symbol <;> simp [constant?] at same
  | name text => simp [constant?] at same
  | quotedName text => simp [constant?] at same
  | parameter text => simp [constant?] at same
  | keyword keyword => simp only [Parse.expr, left, same]
  | string text => simp only [Parse.expr, left, same]
  | integer value => simp only [Parse.expr, left, same]
  | decimal value => simp only [Parse.expr, left, same]

/-- A number after a minus sign. -/
theorem isExpr_negative {word : Word} {constant : Located Literal}
    (same : negated? word.token = some constant.value) :
    IsExpr [Symbol.minus.word, word] (.literal constant) := by
  refine .of_succ rfl fun depth rest _ _ => ?_
  have number : ∀ sign, Reads (negativeNumber sign) [word] rest
      fun value => value.unplaced = (Expr.literal constant).unplaced := by
    intro sign
    apply Reads.peek
    simp only [List.cons_append, List.head?_cons, Option.map_some, Option.bind_some, same]
    exact Reads.here fun span => Reads.all Reads.skip fun _ _ => Reads.pure rfl
  intro cursor ahead
  obtain ⟨⟨token, written, span⟩, lexemes, left, sign, behind⟩ := Reads.first_lexeme ahead
  obtain ⟨value, after, result, there, holds⟩ := number span cursor.next behind
  refine ⟨value, after, ?_, there, holds⟩
  obtain rfl : token = .symbol .minus := congrArg Word.token sign
  simp only [Parse.expr, left, result]

theorem isExpr_path {word : Word} {words : List Word} {path : Path}
    (isName : word.IsName path.root.value)
    (dotted : words = [] ∨ ∃ more, words = Symbol.dot.word :: more)
    (reads : ∀ root rest, root.value = path.root.value →
      Follows (fun token => token ≠ .symbol .dot) rest →
      Reads (pathFrom root) words rest (·.unplaced = path.unplaced)) :
    IsExpr (word :: words) (.path path) := by
  have starts : startsExpr word.token := by
    rcases isName with same | same <;> · rw [same]; rfl
  refine .of_succ starts fun depth rest _ follows => ?_
  have behindPath : Follows (fun token => token ≠ .symbol .dot) rest :=
    follows.mono fun token ends => (Bool.and_eq_true_iff.mp ends).1
  have noCall : Follows (fun token => token ≠ .symbol .openParen) (words ++ rest) := by
    rcases dotted with rfl | ⟨more, rfl⟩
    · exact follows.mono fun token ends => (Bool.and_eq_true_iff.mp ends).2
    · exact .cons (by decide)
  intro cursor ahead
  obtain ⟨⟨token, written, span⟩, lexemes, left, shown, behind⟩ := Reads.first_lexeme ahead
  have whole := Reads.map (f := Expr.path)
    (Q := fun value => value.unplaced = (Expr.path path).unplaced)
    ((reads ⟨path.root.value, span⟩ rest rfl behindPath).mono fun found same => by
      rw [Expr.unplaced_path, same, Expr.unplaced_path])
  obtain ⟨value, after, result, there, holds⟩ := whole cursor.next behind
  refine ⟨value, after, ?_, there, holds⟩
  have second : ∀ text span more, lexemes ≠ ⟨.symbol .openParen, text, span⟩ :: more := by
    rintro text place more rfl
    have tail : (⟨.symbol .openParen, text⟩ : Word) ∈ (words ++ rest).head? := by
      change cursor.next.words = words ++ rest at behind
      rw [← behind, Cursor.words, Cursor.next, left]
      exact rfl
    simpa using noCall _ tail
  subst shown
  rcases isName with same | same
  · change token = _ at same
    subst same
    simp only [Parse.expr, left]
    split
    · rename_i found
      exact absurd (List.cons.inj found).2 (second _ _ _)
    · rename_i found
      obtain ⟨rfl, rfl⟩ := List.cons.inj found
      exact result
    · contradiction
  · change token = _ at same
    subst same
    simp only [Parse.expr, left]
    exact result

/-- A name with parentheses behind it is a call. -/
theorem IsExpr.of_arguments {word : Word} {words : List Word} {text : String} {expr : Expr}
    (same : word.token = .name text)
    (reads : ∀ depth rest span, words.length < depth →
      Reads (arguments (Parse.expr depth) ⟨text, span⟩) words rest (·.unplaced = expr.unplaced)) :
    IsExpr (word :: Symbol.openParen.word :: words) expr := by
  refine .of_succ (by rw [same]; rfl) fun depth rest enough _ => ?_
  intro cursor ahead
  obtain ⟨⟨token, written, span⟩, lexemes, left, shown, behind⟩ := Reads.first_lexeme ahead
  obtain ⟨⟨paren, written', span'⟩, lexemes', left', shown', behind'⟩ := Reads.first_lexeme behind
  obtain ⟨value, after, result, there, holds⟩ :=
    reads depth rest span (by rw [List.length_cons] at enough; omega) cursor.next.next behind'
  refine ⟨value, after, ?_, there, holds⟩
  subst shown
  change token = _ at same
  obtain rfl : paren = .symbol .openParen := congrArg Word.token shown'
  obtain rfl : lexemes = ⟨.symbol .openParen, written', span'⟩ :: lexemes' := by
    rw [← left', Cursor.next, left]
  subst same
  simp only [Parse.expr, left]
  exact result

theorem ofName?_spelling (function : Aggregate) :
    Aggregate.ofName? function.spelling = some function := by
  cases function <;> decide

/-- The words of an expression start neither a list's end nor a reserved word of the call. -/
theorem IsExpr.follows {words rest : List Word} {expr : Expr} (isExpr : IsExpr words expr)
    {token : Token} (other : startsExpr token = false) :
    Follows (fun found => found ≠ token) (words ++ rest) := by
  obtain ⟨word, more, rfl, starts⟩ := isExpr.starts
  refine .cons_ne fun same => ?_
  rw [same, other] at starts
  contradiction

theorem IsExpr.expression {words rest : List Word} {expr : Expr} (isExpr : IsExpr words expr)
    (follows : Follows endsExpr rest) :
    Reads expression words rest (·.unplaced = expr.unplaced) :=
  Reads.measured fun size enough => isExpr.reads size rest enough follows

theorem isExpr_aggregate {word : Word} {words : List Word} {function : Aggregate}
    {distinct : Bool} {argument : Expr} {span : Span}
    (same : word.token = .name function.spelling) (inner : IsExpr words argument) :
    IsExpr
      (word :: Symbol.openParen.word ::
        (Keyword.distinct.word.when distinct ++ (words ++ [Symbol.closeParen.word])))
      (.aggregate function distinct argument span) := by
  refine .of_arguments same fun depth rest span enough => ?_
  simp only [List.length_append, List.length_cons, List.length_nil] at enough
  have close : Follows endsExpr ([Symbol.closeParen.word] ++ rest) := .cons (by decide)
  refine Reads.bind (Reads.accept_optional rfl ?_) ?_
  · rw [List.append_assoc]
    exact inner.follows rfl
  rintro _ rfl
  have one : Reads (commaList (Parse.expr depth)) words ([Symbol.closeParen.word] ++ rest)
      fun found => found.map Expr.unplaced = [argument].map Expr.unplaced :=
    Reads.separated (E := endsExpr) (rfl : Symbol.comma.word.token = _) (by decide)
      (fun _ _ rest ⟨enough, _, isExpr⟩ follows => isExpr.reads depth rest enough follows)
      ((Chain.one inner).bounded (n := depth) (by omega) (List.Subset.refl _)) close
      (.cons (by decide))
  have first : Follows (fun token => token ≠ .symbol .closeParen)
      ((words ++ [Symbol.closeParen.word]) ++ rest) := by
    rw [List.append_assoc]
    exact inner.follows rfl
  apply Reads.peek
  simp only [if_neg first.head_ne]
  refine Reads.bind one fun found shown => Reads.expecting rfl fun stop => ?_
  obtain ⟨value, rfl, holds⟩ := List.map_eq_singleton_iff.mp shown
  simp only [callOf, ofName?_spelling]
  exact Reads.pure (by simp only [Expr.unplaced_aggregate, holds])

theorem isExpr_call {word : Word} {words : List Word} {name : Name} {arguments : List Expr}
    {span : Span} (same : word.token = .name name.value) (callee : IsFunction name.value)
    (chain : arguments = [] ∧ words = [] ∨ Chain IsExpr Symbol.comma.word words arguments) :
    IsExpr (word :: Symbol.openParen.word :: (words ++ [Symbol.closeParen.word]))
      (.call name arguments span) := by
  refine .of_arguments same fun depth rest span enough => ?_
  simp only [List.length_append, List.length_cons, List.length_nil] at enough
  have finish : ∀ span stop (found : List Expr),
      found.map Expr.unplaced = arguments.map Expr.unplaced →
      Reads (callOf ⟨name.value, span⟩ false found stop) [] rest
        (·.unplaced = (Expr.call name arguments span).unplaced) := by
    intro span stop found shown
    simp only [callOf, callee.custom]
    exact Reads.pure (by simp only [Expr.unplaced_call, shown, Located.unplaced])
  rcases chain with ⟨rfl, rfl⟩ | chain
  · apply Reads.before (Reads.not_accept (.cons (by decide)))
    rintro _ rfl
    refine Reads.peek (if_pos rfl ▸ ?_)
    exact Reads.before (Reads.pure rfl) fun found empty =>
      Reads.expecting rfl fun stop => finish _ stop found (by rw [empty])
  · have starts : ∀ token, startsExpr token = false →
        Follows (fun found => found ≠ token) ((words ++ [Symbol.closeParen.word]) ++ rest) := by
      intro token other
      rw [List.append_assoc]
      exact chain.head (P := fun words => Follows (fun found => found ≠ token)
        (words ++ ([Symbol.closeParen.word] ++ rest))) fun words expr more isExpr => by
          rw [List.append_assoc]
          exact isExpr.follows other
    apply Reads.before (Reads.not_accept (starts _ rfl))
    rintro _ rfl
    apply Reads.peek
    simp only [if_neg (starts (.symbol .closeParen) rfl).head_ne]
    have several : Reads (commaList (Parse.expr depth)) words ([Symbol.closeParen.word] ++ rest)
        fun found => found.map Expr.unplaced = arguments.map Expr.unplaced :=
      Reads.separated (E := endsExpr) rfl (by decide)
        (fun _ _ rest ⟨small, _, isExpr⟩ follows => isExpr.reads depth rest small follows)
        (chain.bounded (n := depth) (by omega) (List.Subset.refl _)) (.cons (by decide)) (.cons (by decide))
    exact Reads.bind several fun found shown =>
      Reads.expecting rfl fun stop => finish _ stop found shown

/-- The text of a constant. -/
theorem Literal.Printable.isExpr {constant : Located Literal} (good : constant.value.Printable) :
    ∃ words, Spelled endsWord constant.value.print words ∧ IsExpr words (.literal constant) := by
  have reserved : ∀ keyword : Keyword, constant? (.keyword keyword) = some constant.value →
      startsExpr (.keyword keyword) → ∃ words,
        Spelled endsWord keyword.spelling.toList words ∧ IsExpr words (.literal constant) :=
    fun keyword same starts =>
      ⟨_, (spelled_keyword keyword).mono endsPart_of_endsWord, isExpr_constant starts same⟩
  cases shown : constant.value with
  | null => exact reserved .null (by rw [shown]; rfl) rfl
  | bool value =>
    cases value with
    | false => exact reserved .false (by rw [shown]; rfl) rfl
    | true => exact reserved .true (by rw [shown]; rfl) rfl
  | string value =>
    obtain ⟨word, same, spelled⟩ := spelled_string value
    exact ⟨[word], spelled, isExpr_constant (by rw [same]; rfl) (by rw [same, shown]; rfl)⟩
  | integer value =>
    rw [shown] at good
    have numeral := (numeral_integer good).signed
      (decide (value.toInt < 0))
    rw [← toList_toString_int] at numeral
    refine ⟨_, numeral, ?_⟩
    by_cases negative : value.toInt < 0
    · rw [decide_eq_true negative]
      apply isExpr_negative
      have same : -(value.toInt.natAbs : Int) = value.toInt := by omega
      rw [shown, negated?, same, Int64.ofInt_toInt]
    · rw [decide_eq_false negative]
      apply isExpr_constant rfl
      have same : (value.toInt.natAbs : Int) = value.toInt := by omega
      rw [shown, constant?, ← Int64.ofInt_eq_ofNat, same, Int64.ofInt_toInt]
  | decimal value =>
    rw [shown] at good
    obtain ⟨x, rfl⟩ := good
    obtain ⟨whole, fraction, text, nonempty, behind, digits, further, nearest⟩ :=
      Binary64.pointedText_finite x
    have numeral := (numeral_decimal nonempty behind digits further).signed x.negative
    rw [← text] at numeral
    refine ⟨_, numeral, ?_⟩
    cases negative : x.negative with
    | true =>
      apply isExpr_negative
      rw [shown, negated?, ← Decimal.nearest_true, ← negative, nearest]
    | false =>
      apply isExpr_constant rfl
      rw [shown, constant?, ← negative, nearest]

theorem spelled_aggregate (function : Aggregate) :
    Spelled endsName function.spelling.toList [⟨.name function.spelling, function.spelling⟩] := by
  have word : Lexing.word function.spelling.toList = .name function.spelling := by
    cases function <;> decide
  rw [← word]
  exact spelled_plain (by cases function <;> decide)

theorem Expr.print_call (name : Name) (arguments : List Expr) (span : Span) :
    (Expr.call name arguments span).print = name.value.toList ++
      Printing.parenthesized (Printing.commaList (arguments.map Expr.print)) := by
  simp only [Expr.print, fold_call, printWalk]

/-- A printed expression is read back. -/
theorem Expr.Printable.isExpr {expr : Expr} (printable : expr.Printable) :
    ∃ words, Spelled endsWord expr.print words ∧ IsExpr words expr := by
  induction printable with
  | path path =>
    obtain ⟨word, words, isName, spelled, dotted, reads⟩ := reads_path path
    exact ⟨_, spelled.word, isExpr_path isName (dotted.imp_left And.right) reads⟩
  | literal good => exact good.isExpr
  | parameter marker =>
    obtain ⟨word, same, spelled⟩ := spelled_parameter marker
    exact ⟨_, spelled, isExpr_parameter same⟩
  | @aggregate function distinct argument span _ ih =>
    obtain ⟨words, spelled, inner⟩ := ih
    have inside : Spelled endsWord ((if distinct then "distinct ".toList else []) ++ argument.print)
        (Keyword.distinct.word.when distinct ++ words) := by
      cases distinct with
      | false => exact spelled
      | true => exact (spelled_keyword_space .distinct).appendAny spelled
    have whole := (spelled_aggregate function).append
      (spelled_parenthesized (E := endsWord) inside) rfl
    rw [List.append_assoc (Keyword.distinct.word.when distinct)] at whole
    exact ⟨_, whole, isExpr_aggregate rfl inner⟩
  | @call name arguments span callee _ ih =>
    have named := spelled_plain callee.plain
    rw [Lexing.word, callee.free, String.ofList_toList] at named
    rw [Expr.print_call]
    by_cases empty : arguments = []
    · subst empty
      exact ⟨_, named.append (spelled_parenthesized (Spelled.nil endsWord)) rfl,
        isExpr_call rfl callee (.inl ⟨rfl, rfl⟩)⟩
    · obtain ⟨words, spelled, chain⟩ := spelled_commaList empty ih
      exact ⟨_, named.append (spelled_parenthesized spelled) rfl,
        isExpr_call rfl callee (.inr chain)⟩

/-- Printed expressions with commas between them. -/
theorem isExpr_list {exprs : List Expr} (nonempty : exprs ≠ [])
    (each : ∀ expr ∈ exprs, expr.Printable) :
    ∃ words, Spelled endsWord (Printing.commaList (exprs.map Expr.print)) words ∧
      Chain IsExpr Symbol.comma.word words exprs :=
  spelled_commaList nonempty fun expr found => (each expr found).isExpr

theorem Reads.expressions {words rest : List Word} {exprs : List Expr}
    (chain : Chain IsExpr Symbol.comma.word words exprs) (follows : Follows endsExpr rest)
    (other : Follows (fun token => token ≠ .symbol .comma) rest) :
    Reads (commaList expression) words rest fun found =>
      found.map Expr.unplaced = exprs.map Expr.unplaced :=
  Reads.separated (E := endsExpr) rfl (by decide)
    (fun _ _ _ isExpr follows => isExpr.expression follows) chain follows other

end QueryGuard
