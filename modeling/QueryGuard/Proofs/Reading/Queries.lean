import QueryGuard.Proofs.Reading.Conditions
/-!
Printed queries are read back, if their conditions are.
-/

set_option autoImplicit false

namespace QueryGuard

/-- A join along a path follows an attribute at least, and a join to an entity has a condition. -/
def Join.Printable {Condition : Type} (join : Join Condition) : Prop :=
  match join.target with
  | .path path => path.attributes ≠ []
  | .entity _ => join.condition.isSome

/-- All clauses but the conditions can be written down. -/
structure Select.LevelPrintable {Condition : Type} (query : Select Condition) : Prop where
  nonempty : query.items ≠ []
  items : ∀ item ∈ query.items, item.expr.Printable
  joins : ∀ join ∈ query.joins, join.Printable
  groupBy : ∀ expr ∈ query.groupBy, expr.Printable
  orderBy : ∀ item ∈ query.orderBy, item.expr.Printable
  limit : ∀ count ∈ query.limit, count.value ≤ Lexing.largestInteger
  offset : ∀ count ∈ query.offset, count.value ≤ Lexing.largestInteger

open Lexing Parse

/-! ### Clauses that may be left out -/

/-- The words of what a reserved word announces, if there is something. -/
inductive IsClause {α : Type} (item : List Word → α → Prop) (keyword : Keyword) :
    List Word → Option α → Prop where
  | absent : IsClause item keyword [] none
  | present {words : List Word} {value : α} (holds : item words value) :
      IsClause item keyword (keyword.word :: words) (some value)

/-- A clause is put in front of what may follow it. -/
theorem IsClause.follows {α : Type} {item : List Word → α → Prop} {keyword : Keyword}
    {keywords : List Keyword} {words words' rest : List Word} {value : Option α}
    (clause : IsClause item keyword words value)
    (follows : Follows (closing keywords) (words' ++ rest)) :
    Follows (closing (keyword :: keywords)) ((words ++ words') ++ rest) := by
  cases clause with
  | absent => exact follows.closing_mono (List.subset_cons_self _ _)
  | present holds =>
    refine .cons (closing_iff.mpr (.inr ⟨keyword, List.mem_cons_self, rfl⟩))

theorem IsClause.reads {α β γ : Type} {item : List Word → β → Prop} {keyword : Keyword}
    {keywords : List Keyword} {words rest : List Word} {value : Option β} {body : Parse α}
    (erase : α → γ) (image : β → γ) (clause : IsClause item keyword words value)
    (follows : Follows (closing keywords) rest) (other : keyword ∉ keywords)
    (each : ∀ words' found, item words' found → value = some found →
      words'.length < words.length →
      Reads body words' rest fun result => erase result = image found) :
    Reads (clause? keyword body) words rest fun result =>
      result.map erase = value.map image := by
  cases clause with
  | absent => exact Reads.passed (follows.ne_keyword other) (Reads.pure rfl)
  | present holds =>
    refine Reads.accepted rfl (Reads.all (each _ _ holds rfl (Nat.lt_succ_self _))
      fun result found => Reads.pure ?_)
    rw [Option.map_some, Option.map_some, found]

theorem spelled_clause {α : Type} {item : List Word → α → Prop} (keyword : Keyword)
    (opening : String) (written : opening.toList = ' ' :: (keyword.spelling.toList ++ [' ']))
    {print : α → List Char} {value : Option α}
    (each : ∀ x ∈ value, ∃ words, Spelled endsWord (print x) words ∧ item words x) :
    ∃ words, Spelled endsWord (Printing.clause opening (value.map print)) words ∧
      Starts endsWord (Printing.clause opening (value.map print)) ∧
      IsClause item keyword words value := by
  cases value with
  | none => exact ⟨[], Spelled.nil endsWord, Starts.nil endsWord, .absent⟩
  | some x =>
    obtain ⟨words, spelled, holds⟩ := each x rfl
    have text : Printing.clause opening ((some x).map print) =
        ' ' :: ((keyword.spelling.toList ++ [' ']) ++ print x) := by
      rw [Option.map_some, Printing.clause, written]
      rfl
    rw [text]
    exact ⟨_, ((spelled_keyword_space keyword).appendAny spelled).space, Starts.cons rfl _,
      .present holds⟩

/-- A list that two reserved words announce. -/
theorem spelled_listClause {α : Type} {item : List Word → α → Prop} (keyword : Keyword)
    (opening : String)
    (written : opening.toList = ' ' :: ((keyword.spelling.toList ++ [' ']) ++ "by ".toList))
    {print : α → List Char} {items : List α}
    (each : ∀ x ∈ items, ∃ words, Spelled endsWord (print x) words ∧ item words x) :
    ∃ words, Spelled endsWord (Printing.listClause opening (items.map print)) words ∧
      Starts endsWord (Printing.listClause opening (items.map print)) ∧
      IsClause (fun words items => ∃ more, words = Keyword.by.word :: more ∧
        Chain item Symbol.comma.word more items) keyword words
        (if items.isEmpty then none else some items) := by
  cases items with
  | nil => exact ⟨[], Spelled.nil endsWord, Starts.nil endsWord, .absent⟩
  | cons first rest =>
    obtain ⟨words, spelled, chain⟩ := spelled_commaList (List.cons_ne_nil first rest) each
    have text : Printing.listClause opening ((first :: rest).map print) =
        ' ' :: ((keyword.spelling.toList ++ [' ']) ++
          ("by ".toList ++ Printing.commaList ((first :: rest).map print))) := by
      simp only [Printing.listClause, written, List.cons_append, List.append_assoc]
      rfl
    rw [text]
    exact ⟨_, ((spelled_keyword_space keyword).appendAny
      ((spelled_keyword_space .by).appendAny spelled)).space, Starts.cons rfl _,
      .present ⟨words, rfl, chain⟩⟩

theorem IsClause.reads_list {α γ : Type} {item : List Word → α → Prop} {keyword : Keyword}
    {keywords : List Keyword} {words rest : List Word} {items : List α} {step : Parse α}
    (erase : α → γ) {E : Token → Bool}
    (clause : IsClause (fun words items => ∃ more, words = Keyword.by.word :: more ∧
      Chain item Symbol.comma.word more items) keyword words
      (if items.isEmpty then none else some items))
    (follows : Follows (closing keywords) rest) (other : keyword ∉ keywords)
    (separates : E (.symbol .comma)) (closes : ∀ token, closing keywords token → E token)
    (each : ∀ words value rest, item words value → Follows E rest →
      Reads step words rest fun result => erase result = erase value) :
    Reads (byClause keyword step) words rest fun result =>
      result.map erase = items.map erase := by
  refine Reads.all (clause.reads (List.map erase) (List.map erase) follows other
    ?_) fun result found => Reads.pure ?_
  · rintro _ found ⟨more, rfl, chain⟩ _ _
    exact Reads.expecting rfl fun _ => Reads.separated rfl separates each chain
      (follows.mono closes) (follows.ne_symbol (by decide))
  · cases items with
    | nil =>
      obtain rfl : result = none := by simpa using found
      rfl
    | cons first others =>
      obtain ⟨list, rfl, same⟩ := Option.map_eq_some_iff.mp found
      exact same

/-! ### The parts of a query -/

theorem reads_range (range : Range) :
    ∃ words, Spelled endsName range.print words ∧
      ∀ rest, Reads Parse.range words rest (·.unplaced = range.unplaced) := by
  obtain ⟨word, stands, spelled⟩ := spelled_entity range.entity.value
  obtain ⟨word', isName, spelled'⟩ := spelled_name range.name.value
  refine ⟨[word, word'], spelled.append spelled'.space rfl, fun rest => ?_⟩
  have noAs : word'.token ≠ .keyword .as := by
    rcases isName with same | same <;> simp [same]
  apply Reads.head (Reads.word_of_standsFor stands)
  intro entity sameEntity
  apply Reads.before (Reads.not_accept (.cons_ne noAs))
  intro _ _
  refine Reads.all (P := fun name => name.value = range.name.value) ?_
    fun name sameName => Reads.pure ?_
  · intro cursor ahead
    obtain ⟨name, after, result, there, same⟩ :=
      (Reads.name isName : Reads (Parse.name .rangeAlias) _ _ _) cursor ahead
    exact ⟨name, after, by simp only [result], there, same⟩
  · simp only [Range.unplaced, Located.unplaced, sameEntity, sameName]

/-- The words are read as an item of the select list. -/
structure IsItem (words : List Word) (item : SelectItem) : Prop where
  starts : ∃ word more, words = word :: more ∧ startsExpr word.token
  reads : ∀ rest, Follows (fun token => token = .symbol .comma || token = .keyword .from) rest →
    Reads Parse.selectItem words rest (·.unplaced = item.unplaced)

theorem isItem {item : SelectItem} (printable : item.expr.Printable) :
    ∃ words, Spelled endsWord item.print words ∧ IsItem words item := by
  obtain ⟨words, spelled, isExpr⟩ := printable.isExpr
  obtain ⟨expr, label, span⟩ := item
  cases label with
  | none =>
    refine ⟨words, spelled.of_eq (List.append_nil _).symm rfl, isExpr.starts, fun rest follows => ?_⟩
    have ends : Follows endsExpr rest := follows.mono fun token holds => by
      simp only [Bool.or_eq_true, decide_eq_true_eq] at holds
      rcases holds with rfl | rfl <;> rfl
    have noAs : Follows (fun token => token ≠ .keyword .as) rest := follows.mono fun token holds => by
      simp only [Bool.or_eq_true, decide_eq_true_eq] at holds
      rcases holds with rfl | rfl <;> simp
    apply Reads.all (isExpr.expression ends)
    intro found same
    apply Reads.before (Reads.not_accept noAs)
    rintro _ rfl
    apply Reads.peek
    have noName : ∀ text, (([] : List Word) ++ rest).head?.map Word.token ≠ some (.name text) ∧
        (([] : List Word) ++ rest).head?.map Word.token ≠ some (.quotedName text) := by
      intro text
      cases rest with
      | nil => simp
      | cons word more =>
        have holds := follows word rfl
        simp only [Bool.or_eq_true, decide_eq_true_eq] at holds
        rcases holds with holds | holds <;> simp [holds]
    split
    · rename_i text shown
      exact absurd shown (noName text).1
    · rename_i text shown
      exact absurd shown (noName text).2
    · exact Reads.before (Reads.pure rfl) fun label none => by
        subst none
        exact Reads.pure (by simp only [SelectItem.unplaced, same])
  | some label =>
    obtain ⟨word, isName, spelled'⟩ := spelled_name label.value
    have labelled := spelled.append ((spelled_keyword_space .as).appendAny spelled'.word).space rfl
    refine ⟨_, labelled, ?_, fun rest _ => ?_⟩
    · obtain ⟨word, more, rfl, starts⟩ := isExpr.starts
      exact ⟨word, _, rfl, starts⟩
    apply Reads.bind (isExpr.expression (.cons rfl))
    intro found same
    apply Reads.accepted rfl
    refine Reads.all (Reads.map (f := some)
      (Q := fun found : Option Name => found.map Located.unplaced = some label.unplaced)
      ((Reads.name isName).mono fun found shown => by
        simp only [Option.map_some, Located.unplaced, shown])) fun found shown => Reads.pure ?_
    simp only [SelectItem.unplaced, same, shown, Option.map_some]

/-- The words are read as an item of the ORDER BY clause. -/
def IsOrderItem (words : List Word) (item : OrderItem) : Prop :=
  ∀ rest, Follows (fun token => token = .symbol .comma || closing [.limit, .offset] token) rest →
    Reads Parse.orderItem words rest (·.unplaced = item.unplaced)

theorem isOrderItem {item : OrderItem} (printable : item.expr.Printable) :
    ∃ words, Spelled endsWord item.print words ∧ IsOrderItem words item := by
  obtain ⟨words, spelled, isExpr⟩ := printable.isExpr
  obtain ⟨expr, direction, span⟩ := item
  have ends : ∀ {rest : List Word}, Follows (fun token =>
      token = .symbol .comma || closing [.limit, .offset] token) rest → Follows endsExpr rest := by
    intro rest follows
    apply follows.mono
    intro token holds
    simp only [Bool.or_eq_true, decide_eq_true_eq, closing_iff] at holds
    rcases holds with rfl | rfl | ⟨keyword, _, rfl⟩ <;> rfl
  have other : ∀ {rest : List Word} {keyword : Keyword}, keyword ≠ .limit → keyword ≠ .offset →
      Follows (fun token => token = .symbol .comma || closing [.limit, .offset] token) rest →
      Follows (fun token => token ≠ .keyword keyword) rest := by
    intro rest keyword noLimit noOffset follows
    apply follows.mono
    intro token holds
    simp only [Bool.or_eq_true, decide_eq_true_eq, closing_iff] at holds
    rcases holds with rfl | rfl | ⟨found, member, rfl⟩
    · simp
    · simp
    · simp only [List.mem_cons, List.not_mem_nil, or_false] at member
      rcases member with rfl | rfl
      · simpa using noLimit.symm
      · simpa using noOffset.symm
  cases direction with
  | ascending =>
    refine ⟨words, spelled.of_eq (List.append_nil _).symm rfl, fun rest follows => ?_⟩
    apply Reads.all (isExpr.expression (ends follows))
    intro found same
    refine Reads.before (Reads.not_accept (other (by decide) (by decide) follows)) ?_
    rintro _ rfl
    refine Reads.before (Reads.not_accept (other (by decide) (by decide) follows)) ?_
    rintro _ _
    refine Reads.last fun stop => Reads.pure ?_
    simp only [OrderItem.unplaced, same]
    rfl
  | descending =>
    have desc : Spelled endsWord (' ' :: Keyword.desc.spelling.toList) [Keyword.desc.word] :=
      ((spelled_keyword .desc).mono endsPart_of_endsWord).space
    refine ⟨_, spelled.append desc rfl, fun rest follows => ?_⟩
    apply Reads.bind (isExpr.expression (.cons rfl))
    intro found same
    apply Reads.all (Reads.accept rfl)
    rintro _ rfl
    refine Reads.last fun stop => Reads.pure ?_
    simp only [OrderItem.unplaced, same, ↓reduceIte]

/-- The words are read as the number of a clause. -/
def IsCount (keyword : Keyword) (words : List Word) (count : Located Nat) : Prop :=
  ∀ rest, Reads (Parse.count keyword) words rest (·.unplaced = count.unplaced)

theorem isCount {count : Located Nat} (bound : count.value ≤ largestInteger) (keyword : Keyword) :
    ∃ words, Spelled endsWord (toString count.value).toList words ∧ IsCount keyword words count := by
  have text : (toString count.value).toList = Nat.toDigits 10 count.value := by
    change (Nat.repr count.value).toList = _
    rw [Nat.toList_repr]
  rw [text]
  refine ⟨_, (numeral_integer bound).spelled, fun rest => Reads.of_lexeme ?_⟩
  rintro cursor ⟨token, written, span⟩ lexemes left shown
  obtain rfl : token = .integer count.value := congrArg Word.token shown
  exact ⟨⟨count.value, span⟩, by simp only [Parse.count, left], rfl⟩

/-! ### Joins -/

theorem noKeyword_of_isName {word : Word} {name : String} (isName : word.IsName name)
    (keyword : Keyword) : word.token ≠ .keyword keyword := by
  rcases isName with same | same <;> simp [same]

/-- What is joined, in front of the alias. -/
theorem reads_joinTarget (target : JoinTarget)
    (printable : ∀ path, target = .path path → path.attributes ≠ []) :
    ∃ words, Spelled endsName target.print words ∧
      ∀ rest, Follows (fun token => token ≠ .symbol .dot) rest →
        Reads joinTarget words rest (·.unplaced = target.unplaced) := by
  cases target with
  | path path =>
    obtain ⟨word, words, isName, spelled, dotted, reads⟩ := reads_path path
    refine ⟨_, spelled, fun rest follows => Reads.peek ?_⟩
    obtain ⟨empty, _⟩ | ⟨more, rfl⟩ := dotted
    · exact absurd empty (printable path rfl)
    refine Reads.head (Reads.word_of_standsFor (.inl isName)) fun root same => Reads.peek ?_
    have along : Reads (do let path ← pathFrom root; pure (JoinTarget.path path))
        (Symbol.dot.word :: more) rest (·.unplaced = (JoinTarget.path path).unplaced) :=
      Reads.all (reads root rest same follows) fun found shown =>
        Reads.pure (by simp only [JoinTarget.unplaced, shown])
    rcases isName with shown | shown <;> simpa [shown, Symbol.word] using along
  | entity name =>
    obtain ⟨word, stands, spelled⟩ := spelled_entity name.value
    refine ⟨[word], spelled, fun rest follows => Reads.peek ?_⟩
    refine Reads.head (Reads.word_of_standsFor stands) fun head same => Reads.peek ?_
    have noDot : (([] : List Word) ++ rest).head?.map Word.token ≠ some (.symbol .dot) :=
      follows.head_ne
    simp only [noDot, decide_false, Bool.and_false, Bool.false_eq_true, ↓reduceIte]
    exact Reads.pure (by simp only [JoinTarget.unplaced, Located.unplaced, same])

/-- The first words of joins; INNER is never printed. -/
def startsJoin (token : Token) : Bool := token = .keyword .join || token = .keyword .left

/-- The words that announce a join. -/
theorem spelled_joinKind (kind : JoinKind) :
    ∃ words, Spelled anything (match kind with
        | .inner => " join ".toList
        | .left => " left join ".toList) words ∧
      Follows startsJoin words ∧ words ≠ [] ∧ ∀ rest, Reads joinKind words rest (· = kind) := by
  cases kind with
  | inner =>
    refine ⟨[Keyword.join.word], (spelled_keyword_space .join).space, .cons rfl,
      List.cons_ne_nil _ _, fun rest => ?_⟩
    refine Reads.passed (.cons_ne (by decide)) (Reads.before (Reads.not_accept (.cons_ne (by decide))) ?_)
    intro _ _
    exact Reads.before (Reads.pure rfl) fun kind same =>
      Reads.expecting rfl fun _ => Reads.pure same.symm
  | left =>
    refine ⟨[Keyword.left.word, Keyword.join.word],
      ((spelled_keyword_space .left).appendAny (spelled_keyword_space .join)).space, .cons rfl,
      List.cons_ne_nil _ _, fun rest => ?_⟩
    refine Reads.accepted rfl (Reads.before (Reads.not_accept (.cons_ne (by decide))) ?_)
    intro _ _
    exact Reads.before (Reads.pure rfl) fun kind same =>
      Reads.expecting rfl fun _ => Reads.pure same.symm

section

variable {Condition : Type} {print : Condition → List Char} {tree : Condition → Predicate}

/-- The join without places, also in its condition. -/
def Join.erased (join : Join Predicate) : Join Predicate := (join.map Predicate.unplaced).unplaced

/-- The words are read as the join. -/
def IsJoin (tree : Condition → Predicate) (words : List Word) (join : Join Condition) : Prop :=
  ∀ limit depth level rest, words.length ≤ depth →
    (∀ condition ∈ join.condition, level + (tree condition).nesting ≤ limit) →
    Follows (closing afterCondition) rest →
    Reads (Parse.join (condition limit depth level)) words rest
      (·.erased = (join.map tree).erased)

theorem isJoin {join : Join Condition} (printable : join.Printable)
    (each : ∀ condition ∈ join.condition, ∃ words,
      Spelled endsWord (print condition) words ∧ IsCondition words (tree condition)) :
    ∃ words, Spelled endsWord (join.map print).print words ∧
      Starts endsWord (join.map print).print ∧ Follows startsJoin words ∧ words ≠ [] ∧
      IsJoin tree words join := by
  obtain ⟨kind, target, name, condition, span⟩ := join
  obtain ⟨kinds, spelledKind, starts, nonempty, readsKind⟩ := spelled_joinKind kind
  obtain ⟨targets, spelledTarget, readsTarget⟩ := reads_joinTarget target
    fun path same => by subst same; exact printable
  obtain ⟨word, isName, spelledName⟩ := spelled_name name.value
  obtain ⟨conditions, spelledCondition, edge, clause⟩ := spelled_clause .on " on " rfl each
  have spelled : Spelled endsWord (Join.print ⟨kind, target, name, condition.map print, span⟩)
      (kinds ++ (targets ++ word :: conditions)) := by
    have named := spelledName.word.appendWord spelledCondition edge
    exact (spelledKind.appendAny (spelledTarget.append named.space rfl)).of_eq
      (List.append_assoc _ _ _).symm rfl
  have space : Starts endsWord (Join.print ⟨kind, target, name, condition.map print, span⟩) := by
    cases kind <;> exact Starts.cons rfl _
  refine ⟨_, spelled, space, starts.append nonempty, by simp [nonempty], ?_⟩
  intro limit depth level rest enough within follows
  simp only [List.length_append, List.length_cons] at enough
  refine Reads.here fun start => Reads.bind (readsKind _) fun kind' sameKind => ?_
  refine Reads.bind (readsTarget _ (.cons_ne ?_)) fun target' sameTarget => ?_
  · rcases isName with shown | shown <;> simp [shown]
  apply Reads.before (Reads.not_accept (.cons_ne (noKeyword_of_isName isName .as)))
  intro _ _
  apply Reads.head (Reads.name isName)
  intro name' sameName
  refine Reads.all (clause.reads Predicate.unplaced
    (fun condition => (tree condition).unplaced) follows (by decide)
    fun words found isCondition same shorter =>
      isCondition limit depth level rest (by omega) (within found (by rw [same]; rfl)) follows)
    fun condition' sameCondition => ?_
  have whole : ∀ stop, Join.erased ⟨kind', target', name', condition', start.merge stop⟩ =
      (Join.map tree ⟨kind, target, name, condition, span⟩).erased := by
    intro stop
    simp only [Join.erased, Join.map, Join.unplaced, sameKind, sameTarget, Located.unplaced,
      sameName, sameCondition, Option.map_map]
    rfl
  split
  · rename_i entity
    cases target with
    | path path => simp [JoinTarget.unplaced] at sameTarget
    | entity target =>
      obtain ⟨condition, rfl⟩ := Option.isSome_iff_exists.mp printable
      simp at sameCondition
  · exact Reads.last fun stop => Reads.pure (whole stop)

theorem reads_atJoin {words rest : List Word} (starts : Follows startsJoin words)
    (nonempty : words ≠ []) : Reads atJoin [] (words ++ rest) (· = true) := by
  obtain ⟨word, more, rfl⟩ := List.exists_cons_of_ne_nil nonempty
  have first : startsJoin word.token := starts word rfl
  simp only [startsJoin, Bool.or_eq_true, decide_eq_true_eq] at first
  have found : Reads (pure true) [] (word :: more ++ rest) (· = true) := Reads.pure rfl
  apply Reads.peek
  rcases first with shown | shown <;> simpa [shown] using found

theorem reads_atJoin_none {rest : List Word}
    (follows : Follows (closing [.where, .group, .having, .order, .limit, .offset]) rest) :
    Reads atJoin [] rest (· = false) := by
  apply Reads.peek
  have other : ∀ keyword ∈ [Keyword.join, .inner, .left],
      (([] : List Word) ++ rest).head?.map Word.token ≠ some (.keyword keyword) := by
    intro keyword member
    refine (follows.ne_keyword ?_).head_ne
    simp only [List.mem_cons, List.not_mem_nil, or_false] at member
    rcases member with rfl | rfl | rfl <;> decide
  split
  · rename_i shown
    exact absurd shown (other .join (by decide))
  · rename_i shown
    exact absurd shown (other .inner (by decide))
  · rename_i shown
    exact absurd shown (other .left (by decide))
  · exact Reads.pure rfl

theorem reads_joins {joins : List (Join Condition)} (printable : ∀ join ∈ joins, join.Printable)
    (each : ∀ join ∈ joins, ∀ condition ∈ join.condition, ∃ words,
      Spelled endsWord (print condition) words ∧ IsCondition words (tree condition)) :
    ∃ words, Spelled endsWord ((joins.map (·.map print)).flatMap Join.print) words ∧
      Starts endsWord ((joins.map (·.map print)).flatMap Join.print) ∧
      (words = [] ∨ words ≠ [] ∧ Follows startsJoin words) ∧
      ∀ limit depth level bound rest, words.length ≤ depth → words.length ≤ bound →
        (∀ join ∈ joins, ∀ condition ∈ join.condition,
          level + (tree condition).nesting ≤ limit) →
        Follows (closing [.where, .group, .having, .order, .limit, .offset]) rest →
        Reads (Parse.joins (condition limit depth level) bound) words rest
          fun found => found.map Join.erased = joins.map fun join => (join.map tree).erased := by
  induction joins with
  | nil =>
    refine ⟨[], Spelled.nil endsWord, Starts.nil endsWord, .inl rfl, ?_⟩
    intro limit depth level bound rest _ _ _ follows
    cases bound with
    | zero => exact Reads.pure rfl
    | succ bound =>
      refine Reads.before (reads_atJoin_none follows) ?_
      rintro _ rfl
      exact Reads.pure rfl
  | cons first others ih =>
    obtain ⟨words, spelled, space, starts, nonempty, isFirst⟩ :=
      isJoin (printable first List.mem_cons_self) (each first List.mem_cons_self)
    obtain ⟨words', spelled', space', starts', reads⟩ :=
      ih (fun join found => printable join (List.mem_cons_of_mem _ found))
        fun join found => each join (List.mem_cons_of_mem _ found)
    refine ⟨words ++ words', ?_, space.append space',
      .inr ⟨by simp [nonempty], starts.append nonempty⟩, ?_⟩
    · rw [List.map_cons, List.flatMap_cons]
      exact spelled.appendWord spelled' space'
    · intro limit depth level bound rest enough small within follows
      rw [List.length_append] at enough small
      have some : 0 < words.length := List.length_pos_iff.mpr nonempty
      obtain ⟨bound, rfl⟩ : ∃ smaller, bound = smaller + 1 := ⟨bound - 1, by omega⟩
      have between : Follows (closing afterCondition) (words' ++ rest) := by
        rcases starts' with rfl | ⟨further, starts'⟩
        · exact follows.closing_mono (by decide)
        · refine (starts'.mono fun token holds => ?_).append further
          simp only [startsJoin, Bool.or_eq_true, decide_eq_true_eq] at holds
          rcases holds with rfl | rfl <;> rfl
      have ahead : Reads atJoin [] ((words ++ words') ++ rest) (· = true) := by
        rw [List.append_assoc]
        exact reads_atJoin starts nonempty
      rw [Parse.joins]
      apply Reads.before ahead
      rintro _ rfl
      refine Reads.bind (isFirst limit depth level _ (by omega)
        (within first List.mem_cons_self) between) fun join same => ?_
      refine Reads.all (reads limit depth level bound rest (by omega) (by omega)
        (fun join found => within join (List.mem_cons_of_mem _ found)) follows)
        fun joins same' => Reads.pure ?_
      rw [List.map_cons, List.map_cons, same, same']

end

/-! ### Whole queries -/

section

variable {Condition : Type} {print : Condition → List Char} {tree : Condition → Predicate}
  {query : Select Condition}

/-- The words of the clauses of a query. -/
structure Clauses (tree : Condition → Predicate) (query : Select Condition) where
  items : List Word
  root : List Word
  joins : List Word
  filter : List Word
  groups : List Word
  having : List Word
  orders : List Word
  limits : List Word
  offsets : List Word
  isItems : Chain IsItem Symbol.comma.word items query.items
  readsRoot : ∀ rest, Reads Parse.range root rest (·.unplaced = query.root.unplaced)
  isJoins : joins = [] ∨ joins ≠ [] ∧ Follows startsJoin joins
  readsJoins : ∀ limit depth level bound rest, joins.length ≤ depth → joins.length ≤ bound →
    (∀ join ∈ query.joins, ∀ condition ∈ join.condition,
      level + (tree condition).nesting ≤ limit) →
    Follows (closing [.where, .group, .having, .order, .limit, .offset]) rest →
    Reads (Parse.joins (condition limit depth level) bound) joins rest
      fun found => found.map Join.erased = query.joins.map fun join => (join.map tree).erased
  isFilter : IsClause (fun words condition => IsCondition words (tree condition)) .where filter
    query.filter
  isGroups : IsClause (fun words items => ∃ more, words = Keyword.by.word :: more ∧
    Chain IsExpr Symbol.comma.word more items) .group groups
    (if query.groupBy.isEmpty then none else some query.groupBy)
  isHaving : IsClause (fun words condition => IsCondition words (tree condition)) .having having
    query.having
  isOrders : IsClause (fun words items => ∃ more, words = Keyword.by.word :: more ∧
    Chain IsOrderItem Symbol.comma.word more items) .order orders
    (if query.orderBy.isEmpty then none else some query.orderBy)
  isLimit : IsClause (IsCount .limit) .limit limits query.limit
  isOffset : IsClause (IsCount .offset) .offset offsets query.offset

namespace Clauses

/-- The words after those of the ranges. -/
def tail (clauses : Clauses tree query) : List Word :=
  clauses.filter ++ (clauses.groups ++ (clauses.having ++ (clauses.orders ++
    (clauses.limits ++ clauses.offsets))))

/-- The words of the query. -/
def words (clauses : Clauses tree query) : List Word :=
  Keyword.select.word :: (Keyword.distinct.word.when query.distinct ++
    (clauses.items ++ Keyword.from.word :: (clauses.root ++ (clauses.joins ++ clauses.tail))))

theorem nesting_le {condition : Condition} (member : condition ∈ query.conditions) :
    (tree condition).nesting ≤ Query.nesting (query.map tree) :=
  Query.nesting_le (by rw [Select.conditions_map]; exact List.mem_map_of_mem member)

theorem isQuery (clauses : Clauses tree query) : IsQuery clauses.words (query.map tree) := by
  refine ⟨⟨_, rfl⟩, fun limit depth level rest enough within follows => ?_⟩
  have inside : ∀ condition ∈ query.conditions, level + (tree condition).nesting ≤ limit := by
    intro condition member
    have below := (nesting_le member : (tree condition).nesting ≤ _)
    omega
  simp only [words, tail, List.length_append, List.length_cons] at enough
  have behindLimit : Follows (closing [.offset]) (clauses.offsets ++ rest) := by
    simpa only [List.append_nil] using
      clauses.isOffset.follows (show Follows (closing []) ([] ++ rest) from follows)
  have behindOrders := clauses.isLimit.follows behindLimit
  have behindHaving := clauses.isOrders.follows behindOrders
  have behindGroups := clauses.isHaving.follows behindHaving
  have behindFilter := clauses.isGroups.follows behindGroups
  have behindJoins := clauses.isFilter.follows behindFilter
  have first : Follows (fun token => token ≠ .keyword .distinct)
      ((clauses.items ++ Keyword.from.word ::
        (clauses.root ++ (clauses.joins ++ clauses.tail))) ++ rest) := by
    refine clauses.isItems.head (P := fun words => Follows
      (fun token => token ≠ .keyword .distinct) ((words ++ Keyword.from.word ::
        (clauses.root ++ (clauses.joins ++ clauses.tail))) ++ rest)) fun words item more isItem => ?_
    obtain ⟨word, others, rfl, starts⟩ := isItem.starts
    refine .cons_ne fun same => ?_
    rw [same] at starts
    contradiction
  rw [Parse.query]
  apply Reads.expecting rfl
  intro start
  apply Reads.bind (Reads.accept_optional rfl first)
  rintro _ rfl
  refine Reads.bind (Reads.separated (E := fun token => token = .symbol .comma ||
    token = .keyword .from) rfl rfl (fun words item rest isItem follows => isItem.reads rest follows)
    clauses.isItems (.cons rfl) (.cons_ne (by decide))) fun items sameItems => ?_
  apply Reads.expecting rfl
  intro _
  apply Reads.bind (clauses.readsRoot _)
  intro root sameRoot
  refine Reads.measured_bind (f := Parse.joins (condition limit depth level))
    (fun size small => clauses.readsJoins limit depth level size _ (by omega) small
      (fun join member condition found => inside condition (Select.mem_of_join member found))
      behindJoins) fun joins sameJoins => ?_
  refine Reads.bind (clauses.isFilter.reads Predicate.unplaced
    (fun condition => (tree condition).unplaced) behindFilter (by decide)
    fun words found isCondition same shorter => isCondition limit depth level _ (by omega)
      (inside found (Select.mem_of_filter same)) (behindFilter.closing_mono (by decide)))
    fun filter sameFilter => ?_
  refine Reads.bind (clauses.isGroups.reads_list Expr.unplaced (E := endsExpr)
    behindGroups (by decide) rfl (fun token holds => ?_)
    fun words expr rest isExpr follows => isExpr.expression follows) fun groups sameGroups => ?_
  · rcases closing_iff.mp holds with rfl | ⟨keyword, _, rfl⟩ <;> rfl
  refine Reads.bind (clauses.isHaving.reads Predicate.unplaced
    (fun condition => (tree condition).unplaced) behindHaving (by decide)
    fun words found isCondition same shorter => isCondition limit depth level _ (by omega)
      (inside found (Select.mem_of_having same)) (behindHaving.closing_mono (by decide)))
    fun having sameHaving => ?_
  refine Reads.bind (clauses.isOrders.reads_list OrderItem.unplaced
    (E := fun token => token = .symbol .comma || closing [.limit, .offset] token)
    behindOrders (by decide) rfl (fun token holds => by simp [holds])
    fun words item rest isItem follows => isItem rest follows) fun orders sameOrders => ?_
  refine Reads.bind (clauses.isLimit.reads Located.unplaced Located.unplaced
    behindLimit (by decide)
    fun words found isCount _ _ => isCount _) fun limits sameLimit => ?_
  refine Reads.all (clauses.isOffset.reads Located.unplaced Located.unplaced
    follows (by decide)
    fun words found isCount _ _ => isCount _) fun offsets sameOffset => ?_
  refine Reads.last fun stop => Reads.pure ?_
  have erased : ∀ joins : List (Join Predicate),
      (joins.map (·.map Predicate.unplaced)).map Join.unplaced = joins.map Join.erased :=
    fun joins => by rw [List.map_map]; rfl
  rw [Query.unplaced_eq, Query.unplaced_eq]
  simp only [Select.unplaced, Select.map, erased, sameItems, sameRoot, sameJoins, sameFilter,
    sameGroups, sameHaving, sameOrders, sameLimit, sameOffset, List.map_map, Option.map_map]
  rfl

end Clauses

/-- A printed query is read back, with the trees that are read back for its conditions. -/
theorem isQuery (printable : query.LevelPrintable)
    (each : ∀ condition ∈ query.conditions, ∃ words,
      Spelled endsWord (print condition) words ∧ IsCondition words (tree condition)) :
    ∃ words, Spelled endsWord (query.map print).print words ∧ IsQuery words (query.map tree) := by
  obtain ⟨items, spelledItems, isItems⟩ := spelled_commaList printable.nonempty fun item found =>
    isItem (printable.items item found)
  obtain ⟨root, spelledRoot, readsRoot⟩ := reads_range query.root
  obtain ⟨joins, spelledJoins, spaceJoins, isJoins, readsJoins⟩ :=
    reads_joins printable.joins fun join member condition found =>
      each condition (Select.mem_of_join member found)
  obtain ⟨filter, spelledFilter, spaceFilter, isFilter⟩ := spelled_clause .where
    " where " rfl fun condition found => each condition (Select.mem_of_filter found)
  obtain ⟨groups, spelledGroups, spaceGroups, isGroups⟩ := spelled_listClause .group
    " group by " rfl fun expr found => (printable.groupBy expr found).isExpr
  obtain ⟨having, spelledHaving, spaceHaving, isHaving⟩ := spelled_clause .having
    " having " rfl fun condition found => each condition (Select.mem_of_having found)
  obtain ⟨orders, spelledOrders, spaceOrders, isOrders⟩ := spelled_listClause .order
    " order by " rfl fun item found => isOrderItem (printable.orderBy item found)
  obtain ⟨limits, spelledLimit, spaceLimit, isLimit⟩ := spelled_clause .limit
    " limit " rfl fun count found => isCount (printable.limit count found) .limit
  obtain ⟨offsets, spelledOffset, spaceOffset, isOffset⟩ := spelled_clause .offset
    " offset " rfl fun count found => isCount (printable.offset count found) .offset
  let clauses : Clauses tree query := ⟨items, root, joins, filter, groups, having, orders, limits,
    offsets, isItems, readsRoot, isJoins, readsJoins, isFilter, isGroups, isHaving, isOrders,
    isLimit, isOffset⟩
  have select : Spelled anything "select ".toList [Keyword.select.word] :=
    spelled_keyword_space .select
  have distinct : Spelled anything (if query.distinct then "distinct ".toList else [])
      (Keyword.distinct.word.when query.distinct) := by
    cases query.distinct with
    | false => exact Spelled.nil anything
    | true => exact spelled_keyword_space .distinct
  have source : Spelled anything " from ".toList [Keyword.from.word] :=
    (spelled_keyword_space .from).space
  have spelled := ((((((((((select.appendAny distinct).appendAny spelledItems).join source
    fun after _ => Starts.cons (c := ' ') rfl ("from ".toList ++ after)).appendAny
    spelledRoot.word).appendWord spelledJoins spaceJoins).appendWord spelledFilter
    spaceFilter).appendWord spelledGroups spaceGroups).appendWord spelledHaving
    spaceHaving).appendWord spelledOrders spaceOrders).appendWord spelledLimit
    spaceLimit).appendWord spelledOffset spaceOffset
  refine ⟨clauses.words, spelled.of_eq rfl ?_, clauses.isQuery⟩
  simp only [List.append_assoc, List.cons_append, List.nil_append, Clauses.words, Clauses.tail,
    clauses]

end

end QueryGuard
