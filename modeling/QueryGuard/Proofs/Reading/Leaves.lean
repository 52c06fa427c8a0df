import QueryGuard.Proofs.Reading.Placeless
import QueryGuard.Proofs.Reading.Results
/-!
The leaves of conditions, and that those which the parser returns can be written down. Whether a
tree can be written down does not depend on its places.
-/

set_option autoImplicit false

namespace QueryGuard

/-! ### Places -/

theorem Expr.printable_unplaced (expr : Expr) : expr.unplaced.Printable ↔ expr.Printable := by
  induction expr using Expr.induction with
  | path path => exact iff_of_true (.path _) (.path _)
  | literal literal =>
    constructor
    · rintro (_ | good)
      exact .literal good
    · rintro (_ | good)
      exact .literal good
  | parameter name =>
    constructor
    · rintro (_ | _ | marker)
      exact .parameter marker
    · rintro (_ | _ | marker)
      exact .parameter marker
  | aggregate function distinct argument span ih =>
    constructor
    · rintro (_ | _ | _ | inner)
      exact .aggregate (ih.mp inner)
    · rintro (_ | _ | _ | inner)
      exact .aggregate (ih.mpr inner)
  | call name arguments span ih =>
    rw [unplaced_call]
    constructor
    · rintro (_ | _ | _ | _ | ⟨callee, each⟩)
      exact .call callee fun argument found =>
        (ih argument found).mp (each _ (List.mem_map_of_mem found))
    · rintro (_ | _ | _ | _ | ⟨callee, each⟩)
      exact .call callee (List.forall_mem_map.mpr fun argument found =>
        (ih argument found).mpr (each argument found))

/-- What holds of the images is what holds of the elements. -/
theorem forall_mem_map_iff {α β : Type} {f : α → β} {P : β → Prop} {Q : α → Prop}
    (items : List α) (same : ∀ x ∈ items, P (f x) ↔ Q x) :
    (∀ y ∈ items.map f, P y) ↔ ∀ x ∈ items, Q x :=
  List.forall_mem_map.trans (forall₂_congr same)

theorem Test.printable_unplaced (test : Test) : test.unplaced.Printable ↔ test.Printable := by
  have exprs : (∀ expr ∈ test.unplaced.exprs, expr.Printable) ↔
      ∀ expr ∈ test.exprs, expr.Printable := by
    rw [exprs_unplaced]
    exact forall_mem_map_iff _ fun expr _ => expr.printable_unplaced
  have shape : test.unplaced.Shaped ↔ test.Shaped := by
    cases test with
    | inList tested items negated => exact not_congr List.map_eq_nil_iff
    | _ => exact Iff.rfl
  exact ⟨fun printable => ⟨exprs.mp printable.exprs, shape.mp printable.shape⟩,
    fun printable => ⟨exprs.mpr printable.exprs, shape.mpr printable.shape⟩⟩

theorem Join.printable_erased (join : Join Predicate) : join.erased.Printable ↔ join.Printable := by
  obtain ⟨kind, target, name, condition, span⟩ := join
  cases target with
  | path path => exact not_congr List.map_eq_nil_iff
  | entity entity =>
    change (condition.map Predicate.unplaced).isSome ↔ condition.isSome
    rw [Option.isSome_map]

theorem Query.levelPrintable_unplaced (query : Query) :
    query.unplaced.LevelPrintable ↔ query.LevelPrintable := by
  have nonempty : query.items.map SelectItem.unplaced ≠ [] ↔ query.items ≠ [] :=
    not_congr List.map_eq_nil_iff
  have items : (∀ item ∈ query.items.map SelectItem.unplaced, item.expr.Printable) ↔
      ∀ item ∈ query.items, item.expr.Printable :=
    forall_mem_map_iff _ fun item _ => item.expr.printable_unplaced
  have joins : (∀ join ∈ (query.joins.map (·.map Predicate.unplaced)).map Join.unplaced,
      join.Printable) ↔ ∀ join ∈ query.joins, join.Printable := by
    rw [List.map_map]
    exact forall_mem_map_iff _ fun join _ => join.printable_erased
  have groups : (∀ expr ∈ query.groupBy.map Expr.unplaced, expr.Printable) ↔
      ∀ expr ∈ query.groupBy, expr.Printable :=
    forall_mem_map_iff _ fun expr _ => expr.printable_unplaced
  have orders : (∀ item ∈ query.orderBy.map OrderItem.unplaced, item.expr.Printable) ↔
      ∀ item ∈ query.orderBy, item.expr.Printable :=
    forall_mem_map_iff _ fun item _ => item.expr.printable_unplaced
  have counts (count : Option (Located Nat)) :
      (∀ found ∈ count.map Located.unplaced, found.value ≤ Lexing.largestInteger) ↔
        ∀ found ∈ count, found.value ≤ Lexing.largestInteger := by
    cases count with
    | none => simp
    | some found => simp [Located.unplaced, Located.synthetic]
  rw [unplaced_eq]
  constructor
  · intro level
    exact ⟨nonempty.mp level.nonempty, items.mp level.items, joins.mp level.joins,
      groups.mp level.groupBy, orders.mp level.orderBy, (counts _).mp level.limit,
      (counts _).mp level.offset⟩
  · intro level
    exact ⟨nonempty.mpr level.nonempty, items.mpr level.items, joins.mpr level.joins,
      groups.mpr level.groupBy, orders.mpr level.orderBy, (counts _).mpr level.limit,
      (counts _).mpr level.offset⟩

theorem Query.conditions_unplaced (query : Query) :
    query.unplaced.conditions = query.conditions.map Predicate.unplaced := by
  rw [unplaced_eq, Select.conditions_unplaced, Select.conditions_map]

namespace Predicate

theorem printable_unplaced (predicate : Predicate) :
    predicate.unplaced.Printable ↔ predicate.Printable := by
  have query (query : Query)
      (same : ∀ condition ∈ query.conditions, condition.unplaced.Printable ↔ condition.Printable) :
      (∀ condition ∈ query.unplaced.conditions, condition.Printable) ↔
        ∀ condition ∈ query.conditions, condition.Printable := by
    rw [Query.conditions_unplaced]
    exact forall_mem_map_iff _ same
  induction predicate using Predicate.induction with
  | and operands ih =>
    have each := forall_mem_map_iff operands ih
    rw [unplaced_and]
    constructor
    · rintro (⟨several, printable⟩)
      exact .and (by simpa using several) (each.mp printable)
    · rintro (⟨several, printable⟩)
      exact .and (by simpa using several) (each.mpr printable)
  | or operands ih =>
    have each := forall_mem_map_iff operands ih
    rw [unplaced_or]
    constructor
    · rintro (_ | ⟨several, printable⟩)
      exact .or (by simpa using several) (each.mp printable)
    · rintro (_ | ⟨several, printable⟩)
      exact .or (by simpa using several) (each.mpr printable)
  | not operand ih =>
    have exists_iff : (∀ query, operand.unplaced ≠ .existsIn query false) ↔
        ∀ query, operand ≠ .existsIn query false := by
      cases operand with
      | existsIn query negated =>
        cases negated with
        | false => exact iff_of_false (fun other => other _ rfl) fun other => other _ rfl
        | true => simp
      | _ => simp
    constructor
    · rintro (_ | _ | ⟨other, inner⟩)
      exact .not (exists_iff.mp other) (ih.mp inner)
    · rintro (_ | _ | ⟨other, inner⟩)
      exact .not (exists_iff.mpr other) (ih.mpr inner)
  | group operand ih =>
    constructor
    · rintro (_ | _ | _ | inner)
      exact .group (ih.mp inner)
    · rintro (_ | _ | _ | inner)
      exact .group (ih.mpr inner)
  | test test =>
    constructor
    · rintro (_ | _ | _ | _ | leaf)
      exact .test (test.printable_unplaced.mp leaf)
    · rintro (_ | _ | _ | _ | leaf)
      exact .test (test.printable_unplaced.mpr leaf)
  | inQuery tested inner negated ih =>
    constructor
    · rintro (_ | _ | _ | _ | _ | ⟨expr, level, each⟩)
      exact .inQuery (tested.printable_unplaced.mp expr) (inner.levelPrintable_unplaced.mp level)
        ((query inner ih).mp each)
    · rintro (_ | _ | _ | _ | _ | ⟨expr, level, each⟩)
      exact .inQuery (tested.printable_unplaced.mpr expr) (inner.levelPrintable_unplaced.mpr level)
        ((query inner ih).mpr each)
  | existsIn inner negated ih =>
    constructor
    · rintro (_ | _ | _ | _ | _ | _ | ⟨level, each⟩)
      exact .existsIn (inner.levelPrintable_unplaced.mp level) ((query inner ih).mp each)
    · rintro (_ | _ | _ | _ | _ | _ | ⟨level, each⟩)
      exact .existsIn (inner.levelPrintable_unplaced.mpr level) ((query inner ih).mpr each)

/-! ### Leaves -/

mutual

/-- The conditions that AND, OR, NOT and parentheses put together. -/
def leaves : Predicate → List Predicate
  | .and operands => leavesAll operands
  | .or operands => leavesAll operands
  | .not operand => operand.leaves
  | .group operand => operand.leaves
  | leaf => [leaf]

def leavesAll : List Predicate → List Predicate
  | [] => []
  | first :: rest => first.leaves ++ leavesAll rest

end

theorem leavesAll_eq (operands : List Predicate) : leavesAll operands = operands.flatMap leaves := by
  induction operands with
  | nil => rfl
  | cons first rest ih => rw [leavesAll, ih, List.flatMap_cons]

@[simp] theorem leaves_and (operands : List Predicate) :
    (Predicate.and operands).leaves = operands.flatMap leaves := leavesAll_eq operands

@[simp] theorem leaves_or (operands : List Predicate) :
    (Predicate.or operands).leaves = operands.flatMap leaves := leavesAll_eq operands

/-- What holds of the leaves of operands holds of those of each. -/
theorem of_mem_leaves {P : Predicate → Prop} {operands : List Predicate}
    (each : ∀ leaf ∈ operands.flatMap leaves, P leaf) :
    ∀ operand ∈ operands, ∀ leaf ∈ operand.leaves, P leaf :=
  fun operand among leaf found => each leaf (List.mem_flatMap.mpr ⟨operand, among, found⟩)

theorem Printable.leaves {predicate : Predicate} (printable : predicate.Printable) :
    ∀ leaf ∈ predicate.leaves, leaf.Printable := by
  induction printable with
  | and _ _ ih =>
    intro leaf found
    rw [leaves_and] at found
    obtain ⟨operand, among, found⟩ := List.mem_flatMap.mp found
    exact ih operand among leaf found
  | or _ _ ih =>
    intro leaf found
    rw [leaves_or] at found
    obtain ⟨operand, among, found⟩ := List.mem_flatMap.mp found
    exact ih operand among leaf found
  | not _ _ ih => exact ih
  | group _ ih => exact ih
  | test leaf => exact List.forall_mem_singleton.mpr (.test leaf)
  | inQuery expr level each => exact List.forall_mem_singleton.mpr (.inQuery expr level each)
  | existsIn level each => exact List.forall_mem_singleton.mpr (.existsIn level each)

theorem nesting_unplaced (predicate : Predicate) :
    predicate.unplaced.nesting = predicate.nesting := by
  have placeless : nestingWalk.Placeless id id :=
    { and := fun operands => by rw [List.map_id]; rfl
      or := fun operands => by rw [List.map_id]; rfl
      not := fun _ => rfl
      group := fun _ => rfl
      test := fun _ => rfl
      inQuery := fun _ _ _ => rfl
      existsIn := fun _ _ => rfl
      query := fun query => by
        rw [Select.map_id]
        exact congrArg (List.foldl max 0) query.conditions_unplaced }
  exact placeless.fold_predicate predicate

/-- Queries are nested in a condition as deeply as in its leaves. -/
theorem nesting_le_iff (predicate : Predicate) (bound : Nat) :
    predicate.nesting ≤ bound ↔ ∀ leaf ∈ predicate.leaves, leaf.nesting ≤ bound := by
  have alone (leaf : Predicate) :
      leaf.nesting ≤ bound ↔ ∀ found ∈ [leaf], found.nesting ≤ bound := by
    rw [List.forall_mem_singleton]
  induction predicate using Predicate.induction with
  | and operands ih =>
    rw [leaves_and, List.forall_mem_flatMap]
    constructor
    · exact fun below operand among =>
        (ih operand among).mp (Nat.le_trans (nesting_le_and among) below)
    · intro each
      rw [nesting_and]
      exact foldl_max_le (Nat.zero_le _) (List.forall_mem_map.mpr fun operand among =>
        (ih operand among).mpr (each operand among))
  | or operands ih =>
    rw [leaves_or, List.forall_mem_flatMap]
    constructor
    · exact fun below operand among =>
        (ih operand among).mp (Nat.le_trans (nesting_le_or among) below)
    · intro each
      rw [nesting_or]
      exact foldl_max_le (Nat.zero_le _) (List.forall_mem_map.mpr fun operand among =>
        (ih operand among).mpr (each operand among))
  | not operand ih => exact ih
  | group operand ih => exact ih
  | test test => exact alone _
  | inQuery tested query negated => exact alone _
  | existsIn query negated => exact alone _

/-- The condition is, up to places, a leaf of a condition in a query that is parsed at the depth, all
of whose numbers are finite. -/
def IsRead (depth : Nat) (leaf : Predicate) : Prop :=
  ∃ (source : String) (query : Query),
    Query.parse source depth = .ok query ∧ (∀ x ∈ query.decimals, x.IsFinite) ∧
      ∃ condition ∈ query.conditions, ∃ found ∈ condition.leaves, found.unplaced = leaf.unplaced

namespace IsRead

variable {depth : Nat} {leaf : Predicate}

/-- The leaves that the parser produces can be written down. -/
theorem printable (read : leaf.IsRead depth) : leaf.Printable := by
  obtain ⟨source, query, parsed, finite, condition, member, found, among, same⟩ := read
  have written := ((Query.parsed_of_parse parsed).printable finite).each condition member
  rw [← printable_unplaced, ← same, printable_unplaced]
  exact written.leaves found among

theorem nesting_le (read : leaf.IsRead depth) : leaf.nesting ≤ depth := by
  obtain ⟨source, query, parsed, _, condition, member, found, among, same⟩ := read
  have within := (Query.parsed_of_parse parsed).within
  have below := Query.nesting_le member
  rw [← nesting_unplaced, ← same, nesting_unplaced]
  exact (condition.nesting_le_iff depth).mp (by omega) found among

end IsRead

end Predicate

end QueryGuard
