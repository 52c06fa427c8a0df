import QueryGuard.Proofs.Lexing.Tiling
import QueryGuard.Syntax.Parser
/-!
The place of an error is a part of the source, or its end.

Most errors are at the next lexeme; some point back at a name that was read before, or cover a whole
call. So the places are closed under merging, and what a step is given has one of them.
-/

set_option autoImplicit false

namespace QueryGuard

open Lexing

/-! ### Places in a text -/

/-- The place starts and ends between characters of the text. -/
def Span.Cuts (text : List Char) (span : Span) : Prop :=
  ∃ start stop, start <+: stop ∧ stop <+: text ∧
    span = .between (byteLength start) (byteLength stop)

namespace Span.Cuts

variable {text : List Char}

theorem merge {first second : Span} (cuts : first.Cuts text) (cuts' : second.Cuts text) :
    (first.merge second).Cuts text := by
  obtain ⟨start, stop, within, before, rfl⟩ := cuts
  obtain ⟨start', stop', within', before', rfl⟩ := cuts'
  have leftmost : ∃ least, least <+: text ∧
      byteLength least = min (byteLength start) (byteLength start') := by
    rcases Nat.le_total (byteLength start) (byteLength start') with less | less
    · exact ⟨start, within.trans before, (Nat.min_eq_left less).symm⟩
    · exact ⟨start', within'.trans before', (Nat.min_eq_right less).symm⟩
  have rightmost : ∃ most, most <+: text ∧
      byteLength most = max (byteLength stop) (byteLength stop') := by
    rcases Nat.le_total (byteLength stop) (byteLength stop') with less | less
    · exact ⟨stop', before', (Nat.max_eq_right less).symm⟩
    · exact ⟨stop, before, (Nat.max_eq_left less).symm⟩
  obtain ⟨least, early, left⟩ := leftmost
  obtain ⟨most, late, right⟩ := rightmost
  have growing : byteLength start ≤ byteLength stop := by
    obtain ⟨rest, rfl⟩ := within
    rw [byteLength_append]
    exact Nat.le_add_right _ _
  refine ⟨least, most, prefix_of_byteLength_le early late (by omega), late, ?_⟩
  rw [between_merge_between, left, right]

theorem point : (Span.point (byteLength text)).Cuts text :=
  ⟨text, text, List.prefix_rfl, List.prefix_rfl, rfl⟩

/-- The text in front of the place, in it and behind it. -/
theorem divides {span : Span} {source : String} (cuts : span.Cuts source.toList) :
    ∃ before inside after : String, source = before ++ inside ++ after ∧
      span = .between before.utf8ByteSize (before.utf8ByteSize + inside.utf8ByteSize) := by
  obtain ⟨start, _, ⟨inside, rfl⟩, ⟨after, whole⟩, rfl⟩ := cuts
  refine ⟨String.ofList start, String.ofList inside, String.ofList after, ?_, ?_⟩
  · rw [← String.ofList_append, ← String.ofList_append, whole, String.ofList_toList]
  · rw [utf8ByteSize_ofList, utf8ByteSize_ofList, byteLength_append]

end Span.Cuts

theorem Lexing.Tiles.cuts {text : List Char} {lexemes : List Lexeme}
    (tiles : Tiles 0 text lexemes) : ∀ lexeme ∈ lexemes, lexeme.span.Cuts text := by
  intro lexeme member
  obtain ⟨before, word, after, rfl, _, _, span⟩ := tiles.placed lexeme member
  rw [Nat.zero_add, ← byteLength_append] at span
  exact ⟨before, before ++ word, ⟨word, rfl⟩, ⟨after, rfl⟩, span⟩

/-! ### Steps of the parser -/

/-- All that is still to come has one of the places. -/
structure Cursor.Leads (place : Span → Prop) (cursor : Cursor) : Prop where
  words : ∀ lexeme ∈ cursor.rest, place lexeme.span
  finish : place (.point cursor.finish)

namespace Cursor.Leads

variable {place : Span → Prop} {cursor : Cursor}

theorem span (leads : cursor.Leads place) : place cursor.span := by
  obtain ⟨previous, _ | ⟨lexeme, rest⟩, finish⟩ := cursor
  · exact leads.finish
  · exact leads.words lexeme List.mem_cons_self

theorem next (leads : cursor.Leads place) : cursor.next.Leads place := by
  obtain ⟨previous, _ | ⟨lexeme, rest⟩, finish⟩ := cursor
  · exact leads
  · exact ⟨fun other found => leads.words other (List.mem_cons_of_mem _ found), leads.finish⟩

end Cursor.Leads

namespace Parse

/-- What is left has one of the places, or the error has. -/
def Settled {α : Type} (place : Span → Prop) : Except SyntaxError (α × Cursor) → Prop
  | .ok (_, after) => after.Leads place
  | .error error => place error.span

/-- The step keeps to what has one of the places, or fails at one of them. -/
def Blames {α : Type} (place : Span → Prop) (step : Parse α) : Prop :=
  ∀ cursor, cursor.Leads place → Settled place (step cursor)

namespace Blames

variable {α β : Type} {place : Span → Prop} {step : Parse α}

/-! ### Steps in general -/

theorem pure {value : α} : Blames place (pure value) := fun _ leads => leads

theorem bind {next : α → Parse β} (first : Blames place step)
    (second : ∀ value, Blames place (next value)) : Blames place (step >>= next) := by
  intro cursor leads
  have outcome := first cursor leads
  show Settled place (step cursor >>= fun (value, cursor) => next value cursor)
  generalize step cursor = result at outcome
  rcases result with error | ⟨value, after⟩
  · exact outcome
  · exact second value after outcome

theorem map {f : α → β} (blames : Blames place step) : Blames place (f <$> step) :=
  bind blames fun _ => pure

theorem fail {expected : Expectation} {hint : Option Hint} :
    Blames place (fail expected hint : Parse α) := fun _ leads => leads.span

theorem throw {error : SyntaxError} (holds : place error.span) :
    Blames place (throw error : Parse α) := fun _ _ => holds

theorem peek {next : Option Token → Parse α} (each : ∀ token, Blames place (next token)) :
    Blames place (peek? >>= next) := fun cursor leads => each cursor.token? cursor leads

theorem here {next : Span → Parse α} (each : ∀ span, place span → Blames place (next span)) :
    Blames place (Parse.here >>= next) :=
  fun cursor leads => each cursor.span leads.span cursor leads

theorem last {next : Span → Parse α} (each : ∀ span, Blames place (next span)) :
    Blames place (Parse.last >>= next) := fun cursor leads => each cursor.previous cursor leads

theorem measured {f : Nat → Parse α} (each : ∀ size, Blames place (f size)) :
    Blames place (do f (← get).rest.length) := fun cursor leads => each _ cursor leads

theorem measured_bind {f : Nat → Parse α} {next : α → Parse β}
    (each : ∀ size, Blames place (f size)) (second : ∀ value, Blames place (next value)) :
    Blames place (do next (← f (← get).rest.length)) :=
  measured (f := fun size => f size >>= next) fun size => (each size).bind second

theorem ite {condition : Prop} [Decidable condition] {yes no : Parse α}
    (first : Blames place yes) (second : Blames place no) :
    Blames place (if condition then yes else no) := by
  split
  · exact first
  · exact second

/-! ### Single lexemes -/

theorem skip : Blames place Parse.skip := fun _ leads => leads.next

theorem accept {token : Token} : Blames place (Parse.accept token) :=
  peek fun _ => ite (skip.bind fun _ => pure) pure

theorem expecting {token : Token} {expected : Expectation} {next : Span → Parse α}
    (each : ∀ span, place span → Blames place (next span)) :
    Blames place (Parse.expect token expected >>= next) := by
  rw [Parse.expect, bind_assoc]
  refine here fun span holds => ?_
  rw [bind_assoc]
  refine accept.bind fun there => ?_
  cases there with
  | true => exact each span holds
  | false => exact fun _ leads => leads.span

theorem name {expected : Expectation} : Blames place (Parse.name expected) := by
  rintro ⟨previous, _ | ⟨lexeme, rest⟩, finish⟩ leads
  · exact leads.finish
  · unfold Parse.name
    dsimp only
    cases nameOf? lexeme with
    | none => exact leads.span
    | some name => exact leads.next

theorem word {expected : Expectation} : Blames place (Parse.word expected) := by
  intro cursor leads
  unfold Parse.word
  cases cursor.rest.head?.bind wordOf? with
  | none => exact leads.span
  | some name => exact leads.next

/-! ### Lists and clauses -/

theorem more {separator : Token} (item : Blames place step) (bound : Nat) :
    Blames place (Parse.more separator step bound) := by
  induction bound with
  | zero => exact pure
  | succ bound ih =>
    exact accept.bind fun _ => ite (item.bind fun _ => ih.bind fun _ => pure) pure

theorem following {separator : Token} (item : Blames place step) :
    Blames place (Parse.following separator step) := measured fun size => item.more size

theorem separated {separator : Token} (item : Blames place step) :
    Blames place (Parse.separated separator step) :=
  item.bind fun _ => item.following.bind fun _ => pure

theorem clause {keyword : Keyword} (body : Blames place step) :
    Blames place (clause? keyword step) :=
  accept.bind fun _ => ite (body.bind fun _ => pure) pure

theorem byClause {keyword : Keyword} (item : Blames place step) :
    Blames place (Parse.byClause keyword step) :=
  (clause (expecting fun _ _ => item.separated)).bind fun _ => pure

/-! ### Expressions -/

theorem pathFrom {root : Name} : Blames place (Parse.pathFrom root) :=
  word.following.bind fun _ => pure

theorem negativeNumber {sign : Span} : Blames place (Parse.negativeNumber sign) := by
  refine peek fun token => ?_
  cases token.bind negated? with
  | none => exact fail
  | some value => exact here fun _ _ => skip.bind fun _ => pure

section

variable (merges : ∀ {first second}, place first → place second → place (first.merge second))
include merges

/-- An error of a call stands at the call, or at its name. -/
theorem callOf {name : Name} {distinct : Bool} {list : List Expr} {close : Span}
    (named : place name.span) (closed : place close) :
    Blames place (Parse.callOf name distinct list close) := by
  unfold Parse.callOf
  dsimp only
  split
  · split
    · exact pure
    · exact throw (merges named closed)
  · exact ite (throw named) pure

theorem arguments {expr : Parse Expr} (inner : Blames place expr) {name : Name}
    (named : place name.span) : Blames place (Parse.arguments expr name) := by
  have call (distinct : Bool) (list : List Expr) : Blames place
      (Parse.closeParen >>= fun close => Parse.callOf name distinct list close) :=
    expecting fun close closed => callOf merges named closed
  exact accept.bind fun distinct =>
    peek fun _ => ite (call distinct []) (inner.separated.bind (call distinct))

theorem expr (depth : Nat) : Blames place (Parse.expr depth) := by
  induction depth with
  | zero => exact fail
  | succ depth ih =>
    rintro ⟨previous, rest, finish⟩ leads
    unfold Parse.expr
    dsimp only
    split
    · exact arguments merges ih (leads.words _ List.mem_cons_self) _ leads.next.next
    · split
      · exact pathFrom.map _ leads.next
      · exact pathFrom.map _ leads.next
      · exact leads.next
      · exact negativeNumber _ leads.next
      · exact leads.span
      · split
        · exact leads.next
        · exact leads.span
    · exact leads.span

theorem expression : Blames place Parse.expression := measured (expr merges)

end

/-! ### Conditions -/

theorem escapeCharacter : Blames place Parse.escapeCharacter := by
  rintro ⟨previous, rest, finish⟩ leads
  unfold Parse.escapeCharacter
  split
  · exact leads.next
  · exact leads.span

section

variable (merges : ∀ {first second}, place first → place second → place (first.merge second))
include merges

variable {nested : Parse Query} {tested : Expr} {negated : Bool}

theorem inSource (inner : Blames place nested) :
    Blames place (Parse.inSource nested tested negated) := by
  have list : Blames place (Parse.commaList Parse.expression >>= fun items =>
      Parse.closeParen >>= fun _ => Pure.pure (Predicate.test (.inList tested items negated))) :=
    (expression merges).separated.bind fun _ => expecting fun _ _ => pure
  have inside : Blames place (nested >>= fun query => Parse.closeParen >>= fun _ =>
      Pure.pure (Predicate.inQuery tested query negated)) :=
    inner.bind fun _ => expecting fun _ _ => pure
  refine peek fun token => ?_
  split
  · exact here fun _ _ => skip.bind fun _ => pure
  · exact expecting fun _ _ => peek fun _ => ite inside list

theorem negatableTest (inner : Blames place nested) :
    Blames place (Parse.negatableTest nested tested negated) := by
  refine accept.bind fun _ => ite (inSource merges inner) ?_
  refine accept.bind fun _ => ite ?_ (accept.bind fun _ => ite ?_ fail)
  · exact (expression merges).bind fun _ => expecting fun _ _ =>
      (expression merges).bind fun _ => pure
  · exact (expression merges).bind fun _ => escapeCharacter.clause.bind fun _ => pure

theorem test (inner : Blames place nested) : Blames place (Parse.test nested tested) := by
  refine peek fun token => ?_
  cases token.bind comparison? with
  | some comparison => exact skip.bind fun _ => (expression merges).bind fun _ => pure
  | none =>
    refine accept.bind fun _ => ite ?_ (accept.bind fun _ => negatableTest merges inner)
    exact accept.bind fun _ => expecting fun _ _ => pure

variable {whole : Parse Predicate}

theorem atom (inside : Blames place whole) (inner : Blames place nested) :
    Blames place (Parse.atom whole nested) := by
  refine accept.bind fun _ => ite ?_ (accept.bind fun _ => ite ?_ ?_)
  · exact inside.bind fun _ => expecting fun _ _ => pure
  · exact expecting fun _ _ => inner.bind fun _ => expecting fun _ _ => pure
  · exact (expression merges).bind fun _ => test merges inner

end

variable {whole unit : Parse Predicate}

theorem negation (each : Blames place unit) (bound : Nat) :
    Blames place (Parse.negation unit bound) := by
  induction bound with
  | zero => exact each
  | succ bound ih =>
    refine accept.bind fun _ => ite (peek fun _ => ite ?_ ?_) each
    · exact each.bind fun _ => pure
    · exact ih.bind fun _ => pure

theorem disjunction (each : Blames place unit) : Blames place (Parse.disjunction unit) :=
  (measured (negation each)).separated.map.separated.map

/-! ### Queries -/

/-- The name of a range; where there is none, the error only gets a hint. -/
theorem rangeName : Blames place (fun cursor =>
    match Parse.name .rangeAlias cursor with
    | .error (.unexpected expected found span _) =>
        .error (.unexpected expected found span (some .rangeAlias))
    | result => result) := by
  intro cursor leads
  have named : Blames place (Parse.name .rangeAlias) := name
  have outcome := named cursor leads
  dsimp only
  split
  · rename_i failed
    rw [failed] at outcome
    exact outcome
  · exact outcome

theorem range : Blames place Parse.range :=
  word.bind fun _ => accept.bind fun _ => rangeName.bind fun _ => pure

theorem joinKind : Blames place Parse.joinKind := by
  have announced (kind : JoinKind) : Blames place (do
      let _ ← expectKeyword .join
      Pure.pure kind) := expecting fun _ _ => pure
  exact accept.bind fun _ =>
    ite (accept.bind fun _ => announced _) (accept.bind fun _ => announced _)

theorem joinTarget : Blames place Parse.joinTarget :=
  peek fun _ => word.bind fun _ => peek fun _ => ite (pathFrom.bind fun _ => pure) pure

theorem join (inside : Blames place whole) : Blames place (Parse.join whole) := by
  refine here fun _ _ => joinKind.bind fun _ => joinTarget.bind fun _ => accept.bind fun _ =>
    name.bind fun _ => inside.clause.bind fun _ => ?_
  split
  · exact fail
  · exact last fun _ => pure

theorem joins (inside : Blames place whole) (bound : Nat) :
    Blames place (Parse.joins whole bound) := by
  induction bound with
  | zero => exact pure
  | succ bound ih =>
    have ahead : Blames place atJoin := peek fun _ => by split <;> exact pure
    exact ahead.bind fun _ => ite (inside.join.bind fun _ => ih.bind fun _ => pure) pure

theorem count {keyword : Keyword} : Blames place (Parse.count keyword) := by
  rintro ⟨previous, rest, finish⟩ leads
  unfold Parse.count
  split
  · exact leads.next
  · exact leads.span

section

variable (merges : ∀ {first second}, place first → place second → place (first.merge second))
include merges

theorem selectItem : Blames place Parse.selectItem := by
  have named : Blames place (some <$> Parse.name .label) := name.map
  refine (expression merges).bind fun _ => accept.bind fun _ => ite (named.bind fun _ => pure) ?_
  refine peek fun _ => ?_
  split
  · exact named.bind fun _ => pure
  · exact named.bind fun _ => pure
  · exact pure

theorem orderItem : Blames place Parse.orderItem := by
  refine (expression merges).bind fun _ => accept.bind fun _ => ite (accept.bind fun _ => ?_) ?_
  · exact last fun _ => pure
  · exact last fun _ => pure

theorem query (inside : Blames place whole) : Blames place (Parse.query whole) :=
  expecting fun _ _ => accept.bind fun _ => (selectItem merges).separated.bind fun _ =>
    expecting fun _ _ => range.bind fun _ => measured_bind inside.joins fun _ =>
    inside.clause.bind fun _ => (byClause (expression merges)).bind fun _ =>
    inside.clause.bind fun _ => (byClause (orderItem merges)).bind fun _ =>
    count.clause.bind fun _ => count.clause.bind fun _ => last fun _ => pure

theorem condition (limit depth level : Nat) : Blames place (Parse.condition limit depth level) := by
  induction depth generalizing level with
  | zero => exact fail
  | succ depth ih =>
    have nested : Blames place (subquery limit level (Parse.query (Parse.condition limit depth
        (level + 1)))) :=
      ite (here fun _ holds => throw holds) (query merges (ih (level + 1)))
    exact (atom merges (ih level) nested).disjunction

theorem statement (limit : Nat) : Blames place (Parse.statement limit) :=
  measured fun size => query merges (condition merges limit size 0)

end

/-- Where nothing more may come, the error is at what comes. -/
theorem readAll (blames : Blames place step) {expected : Expectation} {lexemes : List Lexeme}
    {stop : Nat} (words : ∀ lexeme ∈ lexemes, place lexeme.span) (ends : place (.point stop))
    {error : SyntaxError} (fails : step.readAll expected lexemes stop = .error error) :
    place error.span := by
  have finish : Blames place (Parse.finish expected) := peek fun _ => ite fail pure
  have whole : Blames place (do
      let value ← step
      Parse.finish expected
      return value) := blames.bind fun _ => finish.bind fun _ => pure
  have outcome := whole ⟨.point 0, lexemes, stop⟩ ⟨words, ends⟩
  have failed : ∀ result : Except SyntaxError (α × Cursor), result.map (·.1) = .error error →
      Settled place result → place error.span := by
    rintro (_ | _) same settled
    · cases same
      exact settled
    · cases same
  exact failed _ fails outcome

end Blames

end Parse

/-- The place of an error is a part of the source between two characters. -/
theorem Query.parse_error_cuts {source : String} {depth : Nat} {error : SyntaxError}
    (fails : Query.parse source depth = .error error) : error.span.Cuts source.toList := by
  unfold Query.parse Parse.run at fails
  cases tokens : tokenize source with
  | error fault =>
    rw [tokens] at fails
    obtain ⟨before, text, after, rfl, ⟨_, span⟩, _⟩ := fault_of_tokenize tokens
    cases fails
    refine ⟨before.toList, before.toList ++ text.toList, ⟨_, rfl⟩, ⟨after.toList, by simp⟩, ?_⟩
    rw [SyntaxError.span, span, byteLength_append, utf8ByteSize_eq, utf8ByteSize_eq]
  | ok lexemes =>
    rw [tokens] at fails
    have ends : (Span.point source.utf8ByteSize).Cuts source.toList := by
      rw [utf8ByteSize_eq]
      exact Span.Cuts.point
    exact (Parse.Blames.statement Span.Cuts.merge depth).readAll (tiles_of_tokenize tokens).cuts
      ends fails

end QueryGuard
