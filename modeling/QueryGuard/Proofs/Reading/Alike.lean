import QueryGuard.Proofs.Reading.Steps
import QueryGuard.Proofs.Reading.Unplaced
import QueryGuard.Syntax.Parser
/-!
The parser does not look at places: from the same words it reads the same tree up to places, or fails
for the same reason.
-/

set_option autoImplicit false

namespace QueryGuard

/-- The error without its place. -/
def SyntaxError.unplaced : SyntaxError → SyntaxError
  | .lexical error => .lexical ⟨error.fault, .synthetic⟩
  | .unexpected expected found _ hint => .unexpected expected found .synthetic hint
  | .tooDeep limit _ => .tooDeep limit .synthetic

namespace Parse

variable {α β γ δ : Type} {erase : α → β} {step step' : Parse α}

/-- What a step came to, without places: what is told of the value, and the words that are left. -/
def told (erase : α → β) : Except SyntaxError (α × Cursor) → Except SyntaxError (β × List Word)
  | .ok (value, after) => .ok (erase value, after.words)
  | .error error => .error error.unplaced

/-- From the same words the steps come to the same, up to places. -/
def Alike (erase : α → β) (step step' : Parse α) : Prop :=
  ∀ cursor cursor', cursor.words = cursor'.words →
    told erase (step cursor) = told erase (step' cursor')

namespace Alike

/-! ### Steps in general -/

theorem pure {value value' : α} (same : erase value = erase value') :
    Alike erase (pure value) (pure value') := by
  intro cursor cursor' words
  show Except.ok (erase value, cursor.words) = .ok (erase value', cursor'.words)
  rw [same, words]

theorem bind {tell : γ → δ} {next next' : α → Parse γ} (first : Alike erase step step')
    (second : ∀ value value', erase value = erase value' → Alike tell (next value) (next' value')) :
    Alike tell (step >>= next) (step' >>= next') := by
  intro cursor cursor' words
  have outcome := first cursor cursor' words
  show told tell (step cursor >>= fun (value, cursor) => next value cursor) =
    told tell (step' cursor' >>= fun (value, cursor) => next' value cursor)
  generalize step cursor = result at outcome ⊢
  generalize step' cursor' = result' at outcome ⊢
  rcases result with error | ⟨value, after⟩ <;> rcases result' with error' | ⟨value', after'⟩
  · exact congrArg Except.error (Except.error.inj outcome)
  · cases outcome
  · cases outcome
  · obtain ⟨same, left⟩ := Prod.mk.inj (Except.ok.inj outcome)
    exact second value value' same after after' left

theorem map {tell : γ → δ} {f f' : α → γ} (first : Alike erase step step')
    (second : ∀ value value', erase value = erase value' → tell (f value) = tell (f' value')) :
    Alike tell (f <$> step) (f' <$> step') :=
  first.bind fun value value' same => .pure (second value value' same)

/-! ### Looking at the words -/

/-- Cursors with the same words are both at their end or have the same next word. -/
theorem of_cases
    (nil : ∀ place place' stop stop',
      told erase (step ⟨place, [], stop⟩) = told erase (step' ⟨place', [], stop'⟩))
    (cons : ∀ token text span span' more more' place place' stop stop',
      more.map Lexeme.word = more'.map Lexeme.word →
        told erase (step ⟨place, ⟨token, text, span⟩ :: more, stop⟩) =
          told erase (step' ⟨place', ⟨token, text, span'⟩ :: more', stop'⟩)) :
    Alike erase step step' := by
  rintro ⟨place, rest, stop⟩ ⟨place', rest', stop'⟩ words
  change rest.map Lexeme.word = rest'.map Lexeme.word at words
  rcases rest with _ | ⟨⟨token, text, span⟩, more⟩ <;>
    rcases rest' with _ | ⟨⟨token', text', span'⟩, more'⟩
  · exact nil ..
  · cases words
  · cases words
  · obtain ⟨first, others⟩ := List.cons.inj words
    obtain ⟨rfl, rfl⟩ := Word.mk.inj first
    exact cons _ _ _ _ _ _ _ _ _ _ others

theorem fail {expected : Expectation} {hint : Option Hint} :
    Alike erase (fail expected hint) (fail expected hint) :=
  of_cases (fun _ _ _ _ => rfl) fun _ _ _ _ _ _ _ _ _ _ _ => rfl

theorem throw {error error' : SyntaxError} (same : error.unplaced = error'.unplaced) :
    Alike erase (throw error : Parse α) (throw error') :=
  fun _ _ _ => congrArg Except.error same

theorem peek {next next' : Option Token → Parse α}
    (each : ∀ token, Alike erase (next token) (next' token)) :
    Alike erase (peek? >>= next) (peek? >>= next') :=
  of_cases (fun _ _ _ _ => each none _ _ rfl) fun _ _ _ _ _ _ _ _ _ _ words =>
    each _ _ _ (congrArg (_ :: ·) words)

theorem here {next next' : Span → Parse α}
    (each : ∀ span span', Alike erase (next span) (next' span')) :
    Alike erase (Parse.here >>= next) (Parse.here >>= next') :=
  fun cursor cursor' words => each cursor.span cursor'.span cursor cursor' words

theorem last {next next' : Span → Parse α}
    (each : ∀ span span', Alike erase (next span) (next' span')) :
    Alike erase (Parse.last >>= next) (Parse.last >>= next') :=
  fun cursor cursor' words => each cursor.previous cursor'.previous cursor cursor' words

/-- The number of words left is the same. -/
theorem measured {f g : Nat → Parse α} (each : ∀ size, Alike erase (f size) (g size)) :
    Alike erase (do f (← get).rest.length) (do g (← get).rest.length) := by
  intro cursor cursor' words
  have size : cursor.rest.length = cursor'.rest.length := by
    simpa only [Cursor.words, List.length_map] using congrArg List.length words
  show told erase (f cursor.rest.length cursor) = told erase (g cursor'.rest.length cursor')
  rw [size]
  exact each _ cursor cursor' words

theorem measured_bind {tell : γ → δ} {f g : Nat → Parse α} {next next' : α → Parse γ}
    (each : ∀ size, Alike erase (f size) (g size))
    (second : ∀ value value', erase value = erase value' → Alike tell (next value) (next' value')) :
    Alike tell (do next (← f (← get).rest.length)) (do next' (← g (← get).rest.length)) :=
  measured (f := fun size => f size >>= next) (g := fun size => g size >>= next')
    fun size => (each size).bind second

theorem ite {condition : Prop} [Decidable condition] {yes yes' no no' : Parse α}
    (first : Alike erase yes yes') (second : Alike erase no no') :
    Alike erase (if condition then yes else no) (if condition then yes' else no') := by
  split
  · exact first
  · exact second

/-! ### Single words -/

theorem words_next (cursor : Cursor) : cursor.next.words = cursor.words.tail := by
  rcases cursor with ⟨place, _ | ⟨lexeme, more⟩, stop⟩ <;> rfl

theorem skip : Alike (fun _ => ()) Parse.skip Parse.skip := by
  intro cursor cursor' words
  show Except.ok ((), cursor.next.words) = .ok ((), cursor'.next.words)
  rw [words_next, words_next, words]

theorem accept {token : Token} : Alike id (Parse.accept token) (Parse.accept token) :=
  peek fun _ => ite (skip.bind fun _ _ _ => .pure rfl) (.pure rfl)

/-- What comes after a token that may come next depends on whether it does. -/
theorem accepting {token : Token} {next next' : Bool → Parse α}
    (each : ∀ there, Alike erase (next there) (next' there)) :
    Alike erase (Parse.accept token >>= next) (Parse.accept token >>= next') :=
  accept.bind fun there there' (same : there = there') => same ▸ each there

theorem expect {token : Token} {expected : Expectation} :
    Alike (fun _ => ()) (Parse.expect token expected) (Parse.expect token expected) :=
  here fun _ _ => accepting fun _ => ite (.pure rfl) .fail

theorem expecting {token : Token} {expected : Expectation} {next next' : Span → Parse α}
    (each : ∀ span span', Alike erase (next span) (next' span')) :
    Alike erase (Parse.expect token expected >>= next) (Parse.expect token expected >>= next') :=
  expect.bind fun span span' _ => each span span'

/-- A name is told with the words behind it. -/
theorem told_name {span span' : Span} {more more' : List Lexeme}
    (words : more.map Lexeme.word = more'.map Lexeme.word) (name : String) :
    told Located.unplaced (.ok ((⟨name, span⟩ : Name), (⟨span, more, 0⟩ : Cursor))) =
      told Located.unplaced (.ok ((⟨name, span'⟩ : Name), (⟨span', more', 0⟩ : Cursor))) :=
  congrArg (fun left => Except.ok (Located.synthetic name, left)) words

theorem name {expected : Expectation} :
    Alike Located.unplaced (Parse.name expected) (Parse.name expected) := by
  refine of_cases (fun _ _ _ _ => rfl) fun token text span span' more more' _ _ _ _ words => ?_
  cases token with
  | name name => exact told_name words name
  | quotedName name => exact told_name words name
  | _ => rfl

theorem word {expected : Expectation} :
    Alike Located.unplaced (Parse.word expected) (Parse.word expected) := by
  refine of_cases (fun _ _ _ _ => rfl) fun token text span span' more more' _ _ _ _ words => ?_
  cases token with
  | keyword _ => exact told_name words text
  | name name => exact told_name words name
  | quotedName name => exact told_name words name
  | _ => rfl

/-! ### Lists and clauses -/

theorem more {separator : Token} (item : Alike erase step step') (bound : Nat) :
    Alike (List.map erase) (Parse.more separator step bound) (Parse.more separator step' bound) := by
  induction bound with
  | zero => exact .pure rfl
  | succ bound ih =>
    refine accepting fun _ => ite (item.bind fun first first' same => ?_) (.pure rfl)
    refine ih.bind fun others others' equal => .pure ?_
    rw [List.map_cons, List.map_cons, same, equal]

theorem following {separator : Token} (item : Alike erase step step') :
    Alike (List.map erase) (Parse.following separator step) (Parse.following separator step') :=
  measured fun size => item.more size

theorem separated {separator : Token} (item : Alike erase step step') :
    Alike (List.map erase) (Parse.separated separator step) (Parse.separated separator step') := by
  refine item.bind fun first first' same => item.following.bind fun others others' equal => .pure ?_
  rw [List.map_cons, List.map_cons, same, equal]

theorem commaList (item : Alike erase step step') :
    Alike (List.map erase) (Parse.commaList step) (Parse.commaList step') :=
  item.separated

theorem clause {keyword : Keyword} (body : Alike erase step step') :
    Alike (Option.map erase) (clause? keyword step) (clause? keyword step') :=
  accepting fun _ => ite (body.bind fun _ _ same => .pure (congrArg some same)) (.pure rfl)

theorem byClause {keyword : Keyword} (item : Alike erase step step') :
    Alike (List.map erase) (Parse.byClause keyword step) (Parse.byClause keyword step') := by
  refine (clause (expecting fun _ _ => item.commaList)).bind fun list list' same => .pure ?_
  rcases list with _ | list <;> rcases list' with _ | list'
  · rfl
  · cases same
  · cases same
  · exact Option.some.inj same

/-! ### Expressions -/

theorem pathFrom {root root' : Name} (same : root.unplaced = root'.unplaced) :
    Alike Path.unplaced (Parse.pathFrom root) (Parse.pathFrom root') := by
  refine word.following.bind fun attributes attributes' equal => .pure ?_
  simp only [Path.unplaced, same, equal]

theorem negativeNumber (sign sign' : Span) :
    Alike Expr.unplaced (Parse.negativeNumber sign) (Parse.negativeNumber sign') := by
  refine peek fun token => ?_
  cases token.bind negated? with
  | none => exact .fail
  | some value => exact here fun _ _ => skip.bind fun _ _ _ => .pure rfl

theorem callOf {name name' : Name} {list list' : List Expr} (close close' : Span)
    (distinct : Bool) (same : name.value = name'.value)
    (equal : list.map Expr.unplaced = list'.map Expr.unplaced) :
    Alike Expr.unplaced (Parse.callOf name distinct list close)
      (Parse.callOf name' distinct list' close') := by
  unfold Parse.callOf
  rw [same]
  cases Aggregate.ofName? name'.value with
  | some function =>
    have size : list.length = list'.length := by simpa using congrArg List.length equal
    rcases list with _ | ⟨first, _ | ⟨second, rest⟩⟩ <;>
      rcases list' with _ | ⟨first', _ | ⟨second', rest'⟩⟩ <;>
        simp only [List.length_cons, List.length_nil, Nat.add_right_cancel_iff, reduceCtorEq] at size
    · exact .throw rfl
    · refine .pure ?_
      rw [Expr.unplaced_aggregate, Expr.unplaced_aggregate, (List.cons.inj equal).1]
    · refine .throw ?_
      simp only [SyntaxError.unplaced, List.length_cons, size]
  | none =>
    refine ite (.throw rfl) (.pure ?_)
    rw [Expr.unplaced_call, Expr.unplaced_call, equal, Located.unplaced, Located.unplaced, same]

theorem arguments {expr expr' : Parse Expr} (inner : Alike Expr.unplaced expr expr')
    {name name' : Name} (same : name.value = name'.value) :
    Alike Expr.unplaced (Parse.arguments expr name) (Parse.arguments expr' name') := by
  have call (distinct : Bool) (list list' : List Expr)
      (equal : list.map Expr.unplaced = list'.map Expr.unplaced) :
      Alike Expr.unplaced
        (Parse.closeParen >>= fun close => Parse.callOf name distinct list close)
        (Parse.closeParen >>= fun close => Parse.callOf name' distinct list' close) :=
    expecting fun close close' => callOf close close' distinct same equal
  refine accepting fun distinct => peek fun _ => ite (call distinct [] [] rfl) ?_
  exact inner.commaList.bind (call distinct)

/-- A name starts a call if a parenthesis follows, and else a path. -/
theorem expr_name (depth : Nat) (text written : String) (place span : Span) (more : List Lexeme)
    (stop : Nat) :
    Parse.expr (depth + 1) ⟨place, ⟨.name text, written, span⟩ :: more, stop⟩ =
      if more.head?.map Lexeme.token = some (.symbol .openParen) then
        Parse.arguments (Parse.expr depth) ⟨text, span⟩ (Cursor.mk span more stop).next
      else (Expr.path <$> Parse.pathFrom ⟨text, span⟩) ⟨span, more, stop⟩ := by
  rcases more with _ | ⟨⟨token, other, _⟩, more⟩
  · rfl
  · by_cases opens : token = .symbol .openParen
    · subst opens
      rfl
    · have differs : ¬ some token = some (.symbol .openParen) := fun same =>
        opens (Option.some.inj same)
      rw [List.head?_cons, Option.map_some, if_neg differs, Parse.expr]
      dsimp only
      split
      · rename_i same
        cases same
        exact (opens rfl).elim
      · rename_i same
        cases same
        rfl
      · rename_i same
        cases same

theorem expr (depth : Nat) : Alike Expr.unplaced (Parse.expr depth) (Parse.expr depth) := by
  induction depth with
  | zero => exact .fail
  | succ depth ih =>
    refine of_cases (fun _ _ _ _ => rfl)
      fun token text span span' more more' place place' stop stop' words => ?_
    have path (name : String) : Alike Expr.unplaced (Expr.path <$> Parse.pathFrom ⟨name, span⟩)
        (Expr.path <$> Parse.pathFrom ⟨name, span'⟩) :=
      have located : Alike Path.unplaced (Parse.pathFrom ⟨name, span⟩) (Parse.pathFrom ⟨name, span'⟩) :=
        pathFrom rfl
      located.map fun _ _ same => congrArg Expr.path same
    have constant (value : Literal) :
        told Expr.unplaced (.ok (.literal ⟨value, span⟩, ⟨span, more, stop⟩)) =
          told Expr.unplaced (.ok (.literal ⟨value, span'⟩, ⟨span', more', stop'⟩)) :=
      congrArg (fun left => Except.ok (Expr.literal (.synthetic value), left)) words
    cases token with
    | name name =>
      have next : more.head?.map Lexeme.token = more'.head?.map Lexeme.token := by
        have first := congrArg (fun words => words.head?.map Word.token) words
        simpa only [List.head?_map, Option.map_map, Function.comp_def, Lexeme.word] using first
      rw [expr_name, expr_name, next]
      split
      · have call : Alike Expr.unplaced (Parse.arguments (Parse.expr depth) ⟨name, span⟩)
            (Parse.arguments (Parse.expr depth) ⟨name, span'⟩) := arguments ih rfl
        refine call _ _ ?_
        rw [words_next, words_next]
        exact congrArg List.tail words
      · exact path name _ _ words
    | quotedName name => exact path name _ _ words
    | parameter name =>
      exact congrArg (fun left => Except.ok (Expr.parameter (.synthetic name), left)) words
    | symbol symbol =>
      cases symbol with
      | minus => exact negativeNumber span span' _ _ words
      | _ => rfl
    | keyword keyword =>
      simp only [Parse.expr]
      cases constant? (.keyword keyword) with
      | none => rfl
      | some value => exact constant value
    | _ => exact constant _

/-- An expression. -/
theorem expression : Alike Expr.unplaced Parse.expression Parse.expression := measured expr

/-! ### Conditions -/

theorem escapeCharacter : Alike Located.unplaced Parse.escapeCharacter Parse.escapeCharacter := by
  refine of_cases (fun _ _ _ _ => rfl) fun token _ _ _ _ _ _ _ _ _ words => ?_
  cases token with
  | string text => exact congrArg (fun left => Except.ok (Located.synthetic text, left)) words
  | _ => rfl

variable {nested nested' : Parse Query} {tested tested' : Expr}

theorem inSource (inner : Alike Query.unplaced nested nested')
    (same : tested.unplaced = tested'.unplaced) (negated : Bool) :
    Alike Predicate.unplaced (Parse.inSource nested tested negated)
      (Parse.inSource nested' tested' negated) := by
  have listed : Alike Predicate.unplaced
      (Parse.commaList Parse.expression >>= fun items => Parse.closeParen >>= fun _ =>
        Pure.pure (Predicate.test (.inList tested items negated)))
      (Parse.commaList Parse.expression >>= fun items => Parse.closeParen >>= fun _ =>
        Pure.pure (Predicate.test (.inList tested' items negated))) := by
    refine expression.commaList.bind fun items items' equal => expecting fun _ _ => .pure ?_
    simp only [Predicate.unplaced_test, Test.unplaced, same, equal]
  have inside : Alike Predicate.unplaced
      (nested >>= fun query => Parse.closeParen >>= fun _ =>
        Pure.pure (Predicate.inQuery tested query negated))
      (nested' >>= fun query => Parse.closeParen >>= fun _ =>
        Pure.pure (Predicate.inQuery tested' query negated)) := by
    refine inner.bind fun query query' equal => expecting fun _ _ => .pure ?_
    simp only [Predicate.unplaced_inQuery, same, equal]
  refine peek fun token => ?_
  rcases token with _ | token
  · exact expecting fun _ _ => peek fun _ => ite inside listed
  · cases token with
    | parameter name =>
      refine here fun _ _ => skip.bind fun _ _ _ => .pure ?_
      simp only [Predicate.unplaced_test, Test.unplaced, same]
      rfl
    | _ => exact expecting fun _ _ => peek fun _ => ite inside listed

theorem negatableTest (inner : Alike Query.unplaced nested nested')
    (same : tested.unplaced = tested'.unplaced) (negated : Bool) :
    Alike Predicate.unplaced (Parse.negatableTest nested tested negated)
      (Parse.negatableTest nested' tested' negated) := by
  refine accepting fun _ => ite (inner.inSource same negated) ?_
  refine accepting fun _ => ite ?_ (accepting fun _ => ite ?_ .fail)
  · refine expression.bind fun low low' equal => expecting fun _ _ => ?_
    refine expression.bind fun high high' equal' => .pure ?_
    simp only [Predicate.unplaced_test, Test.unplaced, same, equal, equal']
  · refine expression.bind fun pattern pattern' equal => ?_
    refine escapeCharacter.clause.bind fun escape escape' equal' => .pure ?_
    simp only [Predicate.unplaced_test, Test.unplaced, same, equal, equal']

theorem test (inner : Alike Query.unplaced nested nested')
    (same : tested.unplaced = tested'.unplaced) :
    Alike Predicate.unplaced (Parse.test nested tested) (Parse.test nested' tested') := by
  refine peek fun token => ?_
  cases token.bind comparison? with
  | some comparison =>
    refine skip.bind fun _ _ _ => expression.bind fun right right' equal => .pure ?_
    simp only [Predicate.unplaced_test, Test.unplaced, same, equal]
  | none =>
    refine accepting fun _ => ite ?_ (accepting fun negated => inner.negatableTest same negated)
    refine accepting fun negated => expecting fun _ _ => .pure ?_
    simp only [Predicate.unplaced_test, Test.unplaced, same]

variable {whole whole' unit unit' : Parse Predicate}

theorem atom (inside : Alike Predicate.unplaced whole whole')
    (inner : Alike Query.unplaced nested nested') :
    Alike Predicate.unplaced (Parse.atom whole nested) (Parse.atom whole' nested') := by
  refine accepting fun _ => ite ?_ (accepting fun _ => ite ?_ ?_)
  · refine inside.bind fun inner inner' same => expecting fun _ _ => .pure ?_
    rw [Predicate.unplaced_group, Predicate.unplaced_group, same]
  · refine expecting fun _ _ => inner.bind fun query query' same => expecting fun _ _ => .pure ?_
    rw [Predicate.unplaced_existsIn, Predicate.unplaced_existsIn, same]
  · exact expression.bind fun tested tested' same => inner.test same

theorem unplaced_opposite (predicate : Predicate) :
    (opposite predicate).unplaced = opposite predicate.unplaced := by
  cases predicate with
  | existsIn query negated => rfl
  | and operands | or operands => simp only [opposite, Predicate.unplaced_not, Predicate.unplaced_and,
      Predicate.unplaced_or]
  | _ => rfl

theorem negation (single : Alike Predicate.unplaced unit unit') (bound : Nat) :
    Alike Predicate.unplaced (Parse.negation unit bound) (Parse.negation unit' bound) := by
  induction bound with
  | zero => exact single
  | succ bound ih =>
    refine accepting fun _ => ite (peek fun _ => ite ?_ ?_) single
    · refine single.bind fun value value' same => .pure ?_
      rw [unplaced_opposite, unplaced_opposite, same]
    · refine ih.bind fun value value' same => .pure ?_
      rw [Predicate.unplaced_not, Predicate.unplaced_not, same]

theorem disjunction (single : Alike Predicate.unplaced unit unit') :
    Alike Predicate.unplaced (Parse.disjunction unit) (Parse.disjunction unit') := by
  have negation : Alike Predicate.unplaced (do Parse.negation unit (← get).rest.length)
      (do Parse.negation unit' (← get).rest.length) := measured single.negation
  have conjunction : Alike Predicate.unplaced
      (Predicate.allOf <$> Parse.separated (.keyword .and)
        (do Parse.negation unit (← get).rest.length))
      (Predicate.allOf <$> Parse.separated (.keyword .and)
        (do Parse.negation unit' (← get).rest.length)) :=
    negation.separated.map fun _ _ same => by
      rw [Predicate.unplaced_allOf, Predicate.unplaced_allOf, same]
  exact conjunction.separated.map fun _ _ same => by
    rw [Predicate.unplaced_anyOf, Predicate.unplaced_anyOf, same]

/-! ### Queries -/

theorem range : Alike Range.unplaced Parse.range Parse.range := by
  refine word.bind fun entity entity' same => accepting fun _ => ?_
  refine @Alike.bind _ _ _ _ Located.unplaced _ _ _ _ _ ?named fun name name' equal => .pure ?_
  case named =>
    intro cursor cursor' words
    have outcome : told Located.unplaced (Parse.name .rangeAlias cursor) =
        told Located.unplaced (Parse.name .rangeAlias cursor') := name cursor cursor' words
    dsimp only
    generalize Parse.name .rangeAlias cursor = result at outcome ⊢
    generalize Parse.name .rangeAlias cursor' = result' at outcome ⊢
    rcases result with error | _ <;> rcases result' with error' | _
    · have same := Except.error.inj outcome
      cases error with
      | unexpected =>
        cases error' with
        | unexpected =>
          obtain ⟨rfl, rfl, _, _⟩ := SyntaxError.unexpected.inj same
          rfl
        | _ => cases same
      | _ =>
        cases error' with
        | unexpected => cases same
        | _ => exact outcome
    · cases outcome
    · cases outcome
    · exact outcome
  rw [Range.unplaced, Range.unplaced, same, equal]

theorem selectItem : Alike SelectItem.unplaced Parse.selectItem Parse.selectItem := by
  refine expression.bind fun expr expr' same => ?_
  have labelled (label label' : Option Name)
      (equal : label.map Located.unplaced = label'.map Located.unplaced) :
      Alike SelectItem.unplaced
        (Pure.pure ⟨expr, label, match label with
          | some label => expr.span.merge label.span
          | none => expr.span⟩)
        (Pure.pure ⟨expr', label', match label' with
          | some label => expr'.span.merge label.span
          | none => expr'.span⟩) := .pure (by
    simp only [SelectItem.unplaced, same, equal])
  have named : Alike (Option.map Located.unplaced) (some <$> Parse.name .label)
      (some <$> Parse.name .label) :=
    name.map fun _ _ same => congrArg some same
  refine accepting fun _ => ite (named.bind labelled) (peek fun token => ?_)
  rcases token with _ | token
  · exact labelled none none rfl
  · cases token with
    | name _ | quotedName _ => exact named.bind labelled
    | _ => exact labelled none none rfl

theorem joinKind : Alike id Parse.joinKind Parse.joinKind := by
  refine accepting fun _ => ite (accepting fun _ => expecting fun _ _ => .pure rfl) ?_
  exact accepting fun _ => expecting fun _ _ => .pure rfl

theorem joinTarget : Alike JoinTarget.unplaced Parse.joinTarget Parse.joinTarget := by
  refine peek fun token => word.bind fun head head' same => peek fun next => ite ?_ ?_
  · exact (pathFrom same).bind fun _ _ equal => .pure (congrArg JoinTarget.path equal)
  · exact .pure (congrArg JoinTarget.entity same)

theorem join (inside : Alike Predicate.unplaced whole whole') :
    Alike (fun join => (join.map Predicate.unplaced).unplaced) (Parse.join whole)
      (Parse.join whole') := by
  refine here fun start start' => joinKind.bind fun kind _ same => ?_
  obtain rfl : kind = _ := same
  refine joinTarget.bind fun target target' same => accepting fun _ => ?_
  refine name.bind fun name name' equal => inside.clause.bind fun condition condition' alike => ?_
  have joined : Alike (fun join : Join Predicate => (join.map Predicate.unplaced).unplaced)
      (Parse.last >>= fun last => Pure.pure ⟨kind, target, name, condition, start.merge last⟩)
      (Parse.last >>= fun last => Pure.pure ⟨kind, target', name', condition', start'.merge last⟩) :=
    last fun _ _ => .pure (by simp only [Join.map, Join.unplaced, same, equal, alike])
  rcases target with path | entity <;> rcases target' with path' | entity'
  · exact joined
  · cases same
  · cases same
  · rcases condition with _ | condition <;> rcases condition' with _ | condition'
    · have located : entity.unplaced = entity'.unplaced := JoinTarget.entity.inj (show JoinTarget.entity _ = .entity _ from same)
      have value : entity.value = entity'.value := (Located.mk.inj located).1
      dsimp only
      rw [value]
      exact .fail
    · cases alike
    · cases alike
    · exact joined

theorem joins (inside : Alike Predicate.unplaced whole whole') (bound : Nat) :
    Alike (List.map fun join => (join.map Predicate.unplaced).unplaced)
      (Parse.joins whole bound) (Parse.joins whole' bound) := by
  induction bound with
  | zero => exact .pure rfl
  | succ bound ih =>
    have ahead : Alike id atJoin atJoin := by
      refine peek fun token => ?_
      split <;> exact .pure rfl
    refine ahead.bind fun there _ same => ?_
    obtain rfl : there = _ := same
    refine ite (inside.join.bind fun first first' same => ?_) (.pure rfl)
    refine ih.bind fun others others' equal => .pure ?_
    rw [List.map_cons, List.map_cons, same, equal]

theorem orderItem : Alike OrderItem.unplaced Parse.orderItem Parse.orderItem := by
  refine expression.bind fun expr expr' same => accepting fun descending => ?_
  have item : Alike OrderItem.unplaced
      (Parse.last >>= fun last => Pure.pure
        ⟨expr, if descending then .descending else .ascending, expr.span.merge last⟩)
      (Parse.last >>= fun last => Pure.pure
        ⟨expr', if descending then .descending else .ascending, expr'.span.merge last⟩) :=
    last fun _ _ => .pure (by simp only [OrderItem.unplaced, same])
  exact ite (accepting fun _ => item) item

theorem count (clause : Keyword) :
    Alike Located.unplaced (Parse.count clause) (Parse.count clause) := by
  refine of_cases (fun _ _ _ _ => rfl) fun token _ _ _ _ _ _ _ _ _ words => ?_
  cases token with
  | integer value => exact congrArg (fun left => Except.ok (Located.synthetic value, left)) words
  | _ => rfl

theorem query (inside : Alike Predicate.unplaced whole whole') :
    Alike Query.unplaced (Parse.query whole) (Parse.query whole') := by
  refine expecting fun _ _ => accepting fun distinct => ?_
  refine selectItem.commaList.bind fun items items' equalItems => expecting fun _ _ => ?_
  refine range.bind fun root root' equalRoot => ?_
  refine measured_bind (inside.joins ·) fun joins joins' equalJoins => ?_
  refine inside.clause.bind fun filter filter' equalFilter => ?_
  refine (byClause expression).bind fun groupBy groupBy' equalGroupBy => ?_
  refine inside.clause.bind fun having' having'' equalHaving => ?_
  refine (byClause orderItem).bind fun orderBy orderBy' equalOrderBy => ?_
  refine (count .limit).clause.bind fun limit limit' equalLimit => ?_
  refine (count .offset).clause.bind fun offset offset' equalOffset => last fun _ _ => .pure ?_
  simp only [Query.unplaced_eq, Select.map, Select.unplaced, List.map_map, Function.comp_def,
    equalItems, equalRoot, equalJoins, equalFilter, equalGroupBy, equalHaving, equalOrderBy,
    equalLimit, equalOffset]

theorem subquery (limit level : Nat)
    (inner : Alike Query.unplaced nested nested') :
    Alike Query.unplaced (Parse.subquery limit level nested)
      (Parse.subquery limit level nested') :=
  ite (here fun _ _ => .throw rfl) inner

theorem condition (limit depth level : Nat) :
    Alike Predicate.unplaced (Parse.condition limit depth level)
      (Parse.condition limit depth level) := by
  induction depth generalizing level with
  | zero => exact .fail
  | succ depth ih =>
    exact ((ih level).atom ((ih (level + 1)).query.subquery limit level)).disjunction

theorem statement (limit : Nat) :
    Alike Query.unplaced (Parse.statement limit) (Parse.statement limit) :=
  measured fun size => (condition limit size 0).query

theorem finish {expected : Expectation} :
    Alike id (Parse.finish expected) (Parse.finish expected) :=
  peek fun _ => ite .fail (.pure rfl)

end Alike

/-- What a step came to tells its value or its error. -/
theorem told_value {outcome outcome' : Except SyntaxError (α × Cursor)}
    (same : told erase outcome = told erase outcome') :
    ((outcome.map (·.1)).map erase).mapError SyntaxError.unplaced =
      ((outcome'.map (·.1)).map erase).mapError SyntaxError.unplaced := by
  rcases outcome with error | ⟨value, after⟩ <;> rcases outcome' with error' | ⟨value', after'⟩
  · exact congrArg Except.error (Except.error.inj same)
  · cases same
  · cases same
  · exact congrArg Except.ok (Prod.mk.inj (Except.ok.inj same)).1

/-- The same words are read as the same, whatever their places. -/
theorem Alike.readAll (alike : Alike erase step step') {expected : Expectation}
    {lexemes lexemes' : List Lexeme} (words : lexemes.map Lexeme.word = lexemes'.map Lexeme.word)
    (stop stop' : Nat) :
    ((step.readAll expected lexemes stop).map erase).mapError SyntaxError.unplaced =
      ((step'.readAll expected lexemes' stop').map erase).mapError SyntaxError.unplaced := by
  have whole : Alike erase
      (step >>= fun value => Parse.finish expected >>= fun _ => Pure.pure value)
      (step' >>= fun value => Parse.finish expected >>= fun _ => Pure.pure value) :=
    alike.bind fun _ _ same => Alike.finish.bind fun _ _ _ => .pure same
  exact told_value (whole ⟨.point 0, lexemes, stop⟩ ⟨.point 0, lexemes', stop'⟩ words)

end Parse

end QueryGuard
