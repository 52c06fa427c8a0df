import QueryGuard.Proofs.Reading.Leaves
/-!
How the text of any condition is read, if its leaves can be written down.

Conjunctions and disjunctions of one operand are written as that operand, and NOT in front of EXISTS
belongs to it. Where this is not what the tree says, an operator joins what stands nearest to it: the
disjunction of conjunctions that is read is put together from those of the operands.
-/

set_option autoImplicit false

namespace QueryGuard

namespace Predicate

/-- What the condition is read as with NOT in front of it. -/
def denied : Predicate → Predicate
  | .existsIn query false => .existsIn query true
  | other => other.not

theorem denied_of_ne {predicate : Predicate} (other : ∀ query, predicate ≠ .existsIn query false) :
    predicate.denied = predicate.not := by
  unfold denied
  split
  · exact absurd rfl (other _)
  · rfl

theorem denied_ne (predicate : Predicate) (query : Query) :
    predicate.denied ≠ .existsIn query false := by
  unfold denied
  split <;> simp

theorem nesting_denied (predicate : Predicate) : predicate.denied.nesting = predicate.nesting := by
  unfold denied
  split <;> rfl

/-- What two disjunctions are read as with AND between them, which joins the last conjunction of the
first one to the first conjunction of the second one. -/
def fuse : List (List Predicate) → List (List Predicate) → List (List Predicate)
  | [], right => right
  | [last], [] => [last]
  | [last], first :: rest => (last ++ first) :: rest
  | first :: second :: rest, right => first :: fuse (second :: rest) right

theorem fuse_nil (disjuncts : List (List Predicate)) : fuse disjuncts [] = disjuncts := by
  induction disjuncts with
  | nil => rfl
  | cons first rest ih =>
    cases rest with
    | nil => rfl
    | cons second rest => rw [fuse, ih]

theorem flatten_fuse (left right : List (List Predicate)) :
    (fuse left right).flatten = left.flatten ++ right.flatten := by
  induction left with
  | nil => rfl
  | cons first rest ih =>
    cases rest with
    | nil =>
      cases right with
      | nil => simp [fuse]
      | cons second others => simp [fuse]
    | cons second rest =>
      rw [fuse, List.flatten_cons, ih, ← List.append_assoc]
      rfl

/-- What an operand is read as. It is written in parentheses if it seems to bind more weakly than
the operator. -/
def enclosed (weakest strength : Strength) (disjuncts : List (List Predicate)) :
    List (List Predicate) :=
  if strength.rank < weakest.rank then [[.group (ofDisjuncts disjuncts)]] else disjuncts

theorem enclosed_or (strength : Strength) (disjuncts : List (List Predicate)) :
    enclosed .or strength disjuncts = disjuncts := by
  cases strength <;> rfl

mutual

/-- The disjunction of conjunctions that the text of a condition says. -/
def said : Predicate → List (List Predicate)
  | .and operands =>
    if operands.isEmpty then [[always]] else (saidAll .and operands).foldr fuse []
  | .or operands => if operands.isEmpty then [[never]] else (saidAll .or operands).flatten
  | .not operand =>
    (enclosed .not operand.printed.strength operand.said).modifyHead (·.modifyHead denied)
  | .group operand => [[.group (ofDisjuncts operand.said)]]
  | leaf => leaf.reading

def saidAll (weakest : Strength) : List Predicate → List (List (List Predicate))
  | [] => []
  | first :: rest => enclosed weakest first.printed.strength first.said :: saidAll weakest rest

end

/-- What the text of an operand says. -/
def saidIn (weakest : Strength) (operand : Predicate) : List (List Predicate) :=
  enclosed weakest operand.printed.strength operand.said

theorem saidAll_eq (weakest : Strength) (operands : List Predicate) :
    saidAll weakest operands = operands.map (saidIn weakest) := by
  induction operands with
  | nil => rfl
  | cons first rest ih => rw [saidAll, ih, List.map_cons, saidIn]

theorem said_and (operands : List Predicate) :
    (Predicate.and operands).said =
      if operands.isEmpty then [[always]] else (operands.map (saidIn .and)).foldr fuse [] := by
  rw [said, saidAll_eq]

theorem said_or (operands : List Predicate) :
    (Predicate.or operands).said =
      if operands.isEmpty then [[never]] else operands.flatMap said := by
  have same : saidIn .or = said := funext fun operand => enclosed_or _ _
  rw [said, saidAll_eq, same, List.flatMap_def]

theorem said_not (operand : Predicate) :
    operand.not.said = (operand.saidIn .not).modifyHead (·.modifyHead denied) := rfl

theorem said_group (operand : Predicate) :
    operand.group.said = [[.group (ofDisjuncts operand.said)]] := rfl

theorem said_test (test : Test) : (Predicate.test test).said = [[.test test]] := rfl

theorem said_inQuery (tested : Expr) (query : Query) (negated : Bool) :
    (Predicate.inQuery tested query negated).said = [[.inQuery tested query.reread negated]] :=
  reading_inQuery tested query negated

theorem said_existsIn (query : Query) (negated : Bool) :
    (Predicate.existsIn query negated).said = [[.existsIn query.reread negated]] :=
  reading_existsIn query negated

/-- What is joined are the operands, in whatever order AND and OR apply to them. -/
theorem mem_foldr_fuse {all : List (List (List Predicate))} {operand : Predicate}
    (found : operand ∈ (all.foldr fuse []).flatten) :
    ∃ disjuncts ∈ all, ∃ conjuncts ∈ disjuncts, operand ∈ conjuncts := by
  induction all with
  | nil => cases found
  | cons first rest ih =>
    rw [List.foldr_cons, flatten_fuse, List.mem_append] at found
    rcases found with found | found
    · exact ⟨first, List.mem_cons_self, List.mem_flatten.mp found⟩
    · obtain ⟨disjuncts, among, inside⟩ := ih found
      exact ⟨disjuncts, List.mem_cons_of_mem _ among, inside⟩

/-- What a change of the first element keeps holds of all elements. -/
theorem forall_mem_modifyHead {α : Type} {P : α → Prop} {f : α → α} {items : List α}
    (keeps : ∀ x, P x → P (f x)) (each : ∀ x ∈ items, P x) : ∀ x ∈ items.modifyHead f, P x := by
  cases items with
  | nil => exact each
  | cons first rest =>
    rw [List.forall_mem_cons] at each
    rw [List.modifyHead_cons, List.forall_mem_cons]
    exact ⟨keeps first each.1, each.2⟩

/-- Queries are nested no more deeply in what the text says. -/
theorem nesting_said (predicate : Predicate) :
    ∀ conjuncts ∈ predicate.said, ∀ operand ∈ conjuncts, operand.nesting ≤ predicate.nesting := by
  have single {only predicate : Predicate} (below : only.nesting ≤ predicate.nesting) :
      ∀ conjuncts ∈ [[only]], ∀ operand ∈ conjuncts, operand.nesting ≤ predicate.nesting := by
    simpa only [List.forall_mem_singleton] using below
  have inside {predicate : Predicate} (weakest : Strength)
      (ih : ∀ conjuncts ∈ predicate.said, ∀ operand ∈ conjuncts,
        operand.nesting ≤ predicate.nesting) :
      ∀ conjuncts ∈ predicate.saidIn weakest, ∀ operand ∈ conjuncts,
        operand.nesting ≤ predicate.nesting := by
    unfold saidIn enclosed
    split
    · exact single (nesting_ofDisjuncts_le ih)
    · exact ih
  induction predicate using Predicate.induction with
  | and operands ih =>
    rw [said_and]
    split
    · exact single (Nat.zero_le _)
    · intro conjuncts member operand found
      obtain ⟨_, joined, conjuncts, member, found⟩ :=
        mem_foldr_fuse (List.mem_flatten.mpr ⟨conjuncts, member, found⟩)
      obtain ⟨source, among, rfl⟩ := List.mem_map.mp joined
      exact Nat.le_trans (inside .and (ih source among) conjuncts member operand found)
        (nesting_le_and among)
  | or operands ih =>
    rw [said_or]
    split
    · exact single (Nat.zero_le _)
    · intro conjuncts member operand found
      obtain ⟨source, among, member⟩ := List.mem_flatMap.mp member
      exact Nat.le_trans (ih source among conjuncts member operand found) (nesting_le_or among)
  | not operand ih =>
    rw [said_not]
    refine forall_mem_modifyHead (fun conjuncts each => ?_) (inside .not ih)
    exact forall_mem_modifyHead (fun found below => by rwa [nesting_denied]) each
  | group operand ih => exact single (nesting_ofDisjuncts_le ih)
  | test test => exact nesting_reading _
  | inQuery tested inner negated => exact nesting_reading _
  | existsIn inner negated => exact nesting_reading _

end Predicate

open Lexing Parse

/-! ### Reading it -/

namespace Chain

variable {α : Type} {item item' : List Word → α → Prop} {separator : Word} {words : List Word}
  {values : List α}

theorem mono (chain : Chain item separator words values)
    (weaker : ∀ words value, item words value → item' words value) :
    Chain item' separator words values := by
  induction chain with
  | one first => exact .one (weaker _ _ first)
  | more first _ ih => exact .more (weaker _ _ first) ih

/-- A word in front of a chain is one in front of its first item. -/
theorem modifyHead {word : Word} {f : α → α} (chain : Chain item separator words values)
    (each : ∀ words value, item words value → item (word :: words) (f value)) :
    Chain item separator (word :: words) (values.modifyHead f) := by
  cases chain with
  | one first => exact .one (each _ _ first)
  | more first others => exact .more (each _ _ first) others

end Chain

/-- The words are read as the condition, and behind NOT as the denied one. -/
structure IsOperand (words : List Word) (condition : Predicate) : Prop extends
    IsUnary words condition where
  negated : IsUnary (Keyword.not.word :: words) condition.denied

namespace IsOperand

variable {words : List Word} {condition : Predicate}

theorem of_isUnary (isUnary : IsUnary words condition)
    (other : ∀ query, condition ≠ .existsIn query false) : IsOperand words condition :=
  ⟨isUnary, by rw [Predicate.denied_of_ne other]; exact isUnary.not other⟩

theorem denied (isOperand : IsOperand words condition) :
    IsOperand (Keyword.not.word :: words) condition.denied :=
  of_isUnary isOperand.negated condition.denied_ne

end IsOperand

/-- The words are read as the disjunction, also where NOT, AND and OR stand around them. -/
abbrev SaysWords : List Word → List (List Predicate) → Prop :=
  Chain (Chain IsOperand Keyword.and.word) Keyword.or.word

/-- The words on both sides of AND. -/
theorem SaysWords.fuse {words words' : List Word} {left right : List (List Predicate)}
    (first : SaysWords words left) (second : SaysWords words' right) :
    SaysWords (words ++ Keyword.and.word :: words') (Predicate.fuse left right) := by
  induction first with
  | one conjunction =>
    cases second with
    | one other => exact .one (conjunction.append other)
    | more other others =>
      rw [← List.cons_append, ← List.append_assoc]
      exact .more (conjunction.append other) others
  | @more words _ conjuncts values conjunction others ih =>
    obtain ⟨next, rest, rfl⟩ := List.exists_cons_of_ne_nil others.ne_nil
    rw [List.append_assoc, List.cons_append]
    exact .more conjunction ih

/-- The text is read as the disjunction, also where NOT, AND and OR stand around it. -/
def Says (text : List Char) (disjuncts : List (List Predicate)) : Prop :=
  ∃ words, Spelled endsWord text words ∧ SaysWords words disjuncts

namespace Says

variable {text : List Char} {disjuncts : List (List Predicate)} {α : Type} {items : List α}
  {print : α → List Char} {values : α → List (List Predicate)}

theorem of_isOperand {words : List Word} {operand : Predicate} (spelled : Spelled endsWord text words)
    (isOperand : IsOperand words operand) : Says text [[operand]] :=
  ⟨words, spelled, .one (.one isOperand)⟩

theorem isCondition (saying : Says text disjuncts) :
    ∃ words, Spelled endsWord text words ∧ IsCondition words (.ofDisjuncts disjuncts) := by
  obtain ⟨words, spelled, chain⟩ := saying
  have weaker : IsDisjunction words disjuncts :=
    chain.mono fun _ _ conjunction => conjunction.mono fun _ _ isOperand => isOperand.toIsUnary
  exact ⟨words, spelled, weaker.isCondition⟩

theorem parenthesized (saying : Says text disjuncts) :
    Says (Printing.parenthesized text) [[.group (.ofDisjuncts disjuncts)]] := by
  obtain ⟨words, spelled, isCondition⟩ := saying.isCondition
  exact of_isOperand (spelled_parenthesized spelled)
    (.of_isUnary isCondition.isUnary fun _ => Predicate.noConfusion)

theorem operand {condition : PrintedCondition} (saying : Says condition.text disjuncts)
    (weakest : Strength) :
    Says (condition.operand weakest) (Predicate.enclosed weakest condition.strength disjuncts) := by
  unfold PrintedCondition.operand Predicate.enclosed
  split
  · exact saying.parenthesized
  · exact saying

theorem not (saying : Says text disjuncts) :
    Says ("not ".toList ++ text) (disjuncts.modifyHead (·.modifyHead Predicate.denied)) := by
  obtain ⟨words, spelled, chain⟩ := saying
  exact ⟨_, (spelled_keyword_space .not).appendAny spelled,
    chain.modifyHead fun _ _ conjunction => conjunction.modifyHead fun _ _ isOperand =>
      isOperand.denied⟩

/-- Texts with OR between them. -/
theorem disjunction (nonempty : items ≠ []) (each : ∀ x ∈ items, Says (print x) (values x)) :
    Says (" or ".toList.intercalate (items.map print)) (items.flatMap values) :=
  spelled_chain (spelled_keyword_space .or).space
    (fun after => Starts.cons (c := ' ') rfl ("or ".toList ++ after)) print values nonempty each

/-- Texts with AND between them. -/
theorem conjunction (nonempty : items ≠ []) (each : ∀ x ∈ items, Says (print x) (values x)) :
    Says (" and ".toList.intercalate (items.map print))
      ((items.map values).foldr Predicate.fuse []) :=
  spelled_separated (spelled_keyword_space .and).space
    (fun after => Starts.cons (c := ' ') rfl ("and ".toList ++ after)) Predicate.fuse_nil
    SaysWords.fuse print values nonempty each

end Says

/-- What is read without AND and OR, and is not EXISTS, is read behind NOT too. -/
theorem ReadAs.saying {text : List Char} {operand : Predicate} (readAs : ReadAs text [[operand]])
    (other : ∀ query, operand ≠ .existsIn query false) : Says text [[operand]] := by
  obtain ⟨words, spelled, chain⟩ := readAs
  exact .of_isOperand spelled (.of_isUnary chain.single.single other)

namespace Predicate

/-- The text of EXISTS is read behind NOT too. -/
theorem Printable.says_existsIn {query : Query} (printable : Printable (.existsIn query false)) :
    Says (Predicate.existsIn query false).print [[.existsIn query.reread false]] := by
  obtain ⟨words, spelled, isQuery⟩ : ∃ words, Spelled endsWord query.print words ∧
      IsQuery words query.reread := by
    cases printable with
    | existsIn level each =>
      exact readAs_query level fun condition found => (each condition found).readAs
  have whole := (spelled_negation false .exists).appendAny
    (spelled_parenthesized (E := endsWord) spelled)
  exact .of_isOperand (whole.of_eq rfl (by rw [List.append_assoc]; rfl))
    ⟨isQuery.isUnary_existsIn false, isQuery.isUnary_existsIn true⟩

theorem print_and {operands : List Predicate} (nonempty : operands ≠ []) :
    (Predicate.and operands).print =
      " and ".toList.intercalate (operands.map fun operand => operand.printed.operand .and) := by
  rw [print, printed_and]
  rcases operands with _ | ⟨first, _ | ⟨second, rest⟩⟩
  · exact absurd rfl nonempty
  · exact (List.intercalate_singleton).symm
  · simp only [List.map_cons, PrintedCondition.joined, List.map_map]
    rfl

theorem print_or {operands : List Predicate} (nonempty : operands ≠ []) :
    (Predicate.or operands).print = " or ".toList.intercalate (operands.map print) := by
  have same : print = fun operand : Predicate => operand.printed.operand .or :=
    funext fun operand => (operand_or _).symm
  rw [print, printed_or, same]
  rcases operands with _ | ⟨first, _ | ⟨second, rest⟩⟩
  · exact absurd rfl nonempty
  · exact (List.intercalate_singleton).symm
  · simp only [List.map_cons, PrintedCondition.joined, List.map_map]
    rfl

/-- The text of a condition is read as the disjunction that it says. -/
theorem says_said (predicate : Predicate) (leaves : ∀ leaf ∈ predicate.leaves, leaf.Printable) :
    Says predicate.print predicate.said := by
  induction predicate using Predicate.induction with
  | and operands ih =>
    rw [leaves_and] at leaves
    have each : ∀ operand ∈ operands, Says (operand.printed.operand .and) (saidIn .and operand) :=
      fun operand found => (ih operand found (of_mem_leaves leaves operand found)).operand .and
    rw [said_and]
    split
    · rename_i empty
      rw [List.isEmpty_iff.mp empty]
      exact readAs_always.saying fun _ => Predicate.noConfusion
    · rename_i nonempty
      rw [List.isEmpty_iff] at nonempty
      rw [print_and nonempty]
      exact .conjunction nonempty each
  | or operands ih =>
    rw [leaves_or] at leaves
    have each : ∀ operand ∈ operands, Says operand.print operand.said :=
      fun operand found => ih operand found (of_mem_leaves leaves operand found)
    rw [said_or]
    split
    · rename_i empty
      rw [List.isEmpty_iff.mp empty]
      exact readAs_never.saying fun _ => Predicate.noConfusion
    · rename_i nonempty
      rw [List.isEmpty_iff] at nonempty
      rw [print_or nonempty]
      exact .disjunction nonempty each
  | not operand ih => exact ((ih leaves).operand .not).not
  | group operand ih => exact (ih leaves).parenthesized
  | test test =>
    have printable := leaves _ List.mem_cons_self
    exact printable.readAs.saying fun _ => Predicate.noConfusion
  | inQuery tested query negated =>
    have readAs := (leaves _ List.mem_cons_self).readAs
    rw [reading_inQuery] at readAs
    rw [said_inQuery]
    exact readAs.saying fun _ => Predicate.noConfusion
  | existsIn query negated =>
    have printable := leaves _ List.mem_cons_self
    rw [said_existsIn]
    cases negated with
    | false => exact printable.says_existsIn
    | true =>
      have readAs := printable.readAs
      rw [reading_existsIn] at readAs
      exact readAs.saying fun _ => by simp

end Predicate

/-- A query is written as it is without its WHERE clause, and that clause behind it. -/
theorem Query.text_ofEntity (entity name : String) (predicate : Predicate) :
    (Query.ofEntity entity name predicate).text =
      (Query.ofEntity entity name none).text ++ " where " ++ predicate.text := by
  have printed : (Query.ofEntity entity name predicate).print =
      (Query.ofEntity entity name none).print ++ " where ".toList ++ predicate.print := by
    rw [Query.print_eq, Query.print_eq]
    dsimp only [Select.print, Query.ofEntity, Select.map, Printing.clause, Printing.listClause,
      Option.map_some, Option.map_none]
    simp only [List.map_nil, List.flatMap_nil, List.isEmpty_nil, ↓reduceIte, List.append_nil,
      List.append_assoc]
  rw [Query.text, printed, String.ofList_append, String.ofList_append, String.ofList_toList]
  rfl

/-- The text of a condition behind WHERE is parsed to the disjunction that it says. -/
theorem Query.parse_where (entity name : String) {predicate : Predicate}
    (leaves : ∀ leaf ∈ predicate.leaves, leaf.Printable) {depth : Nat}
    (within : predicate.nesting ≤ depth) :
    ∃ query condition, Query.parse
        ((Query.ofEntity entity name none).text ++ " where " ++ predicate.text) depth = .ok query ∧
      query.filter = some condition ∧
      query.unplaced = (Query.ofEntity entity name condition).unplaced ∧
      condition.unplaced = (Predicate.ofDisjuncts predicate.said).unplaced := by
  have readable : ∀ condition ∈ (Query.ofEntity entity name predicate).conditions, ∃ words,
      Spelled endsWord condition.print words ∧ IsCondition words (.ofDisjuncts condition.said) := by
    intro condition member
    have only : condition ∈ [predicate] := member
    rw [List.mem_singleton.mp only]
    exact (predicate.says_said leaves).isCondition
  obtain ⟨words, spelled, isWhere⟩ :=
    isQuery (Query.levelPrintable_ofEntity entity name predicate) readable
  have nested : (Query.ofEntity entity name predicate).nesting ≤ depth := by
    rw [Query.nesting_eq]
    exact Nat.max_le.mpr ⟨Nat.zero_le _, within⟩
  have below : Query.nesting ((Query.ofEntity entity name predicate).map
      fun condition => .ofDisjuncts condition.said) ≤ depth :=
    Nat.le_trans (Query.nesting_map_le fun condition _ =>
      Predicate.nesting_ofDisjuncts_le condition.nesting_said) nested
  have splits : Splits (Query.ofEntity entity name predicate).text.toList words := by
    rw [Query.text, String.toList_ofList, Query.print_eq]
    exact spelled.splits
  have statement : Reads (statement depth) words [] fun found => found.unplaced =
      (Query.ofEntity entity name (Predicate.ofDisjuncts predicate.said)).unplaced :=
    Reads.measured (f := fun size => Parse.query (condition depth size 0)) fun size enough =>
      isWhere.reads depth size 0 [] enough (by omega) (Follows.nil _)
  obtain ⟨query, parsed, same⟩ := Reads.run splits statement .endOfQuery
  have filters : query.filter.map Predicate.unplaced =
      some (Predicate.ofDisjuncts predicate.said).unplaced := by
    rw [Query.unplaced_eq, Query.unplaced_eq] at same
    exact congrArg Select.filter same
  obtain ⟨condition, filter, told⟩ := Option.map_eq_some_iff.mp filters
  refine ⟨query, condition, Query.text_ofEntity entity name predicate ▸ parsed, filter, ?_, told⟩
  rw [same, Query.unplaced_eq, Query.unplaced_eq]
  exact congrArg (fun found => Select.unplaced (Query.ofEntity entity name (some found))) told.symm

end QueryGuard
