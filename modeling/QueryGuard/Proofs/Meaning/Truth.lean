import QueryGuard.Parameter.Map
import QueryGuard.Proofs.Rewriting.Levels
/-!
When a condition is true of a row. A condition is true, false or, where null is compared, unknown; a row
passes only if the condition is true of it. What conditions ask of the store (its functions, orders and
patterns, and the results of queries inside) is left open.
-/

set_option autoImplicit false

namespace QueryGuard

/-! ### Three values -/

namespace Truth

/-- A conjunction is false if one of its operands is, and true if all of them are. -/
def all (operands : List (Option Bool)) : Option Bool :=
  if some false ∈ operands then some false else if none ∈ operands then none else some true

/-- A disjunction is true if one of its operands is, and false if all of them are. -/
def any (operands : List (Option Bool)) : Option Bool :=
  if some true ∈ operands then some true else if none ∈ operands then none else some false

/-- A test in its negated form, if it is written so. -/
def negateIf (negated : Bool) (truth : Option Bool) : Option Bool := truth.map (· != negated)

theorem all_eq_true {operands : List (Option Bool)} :
    all operands = some true ↔ ∀ operand ∈ operands, operand = some true := by
  unfold all
  constructor
  · intro holds operand member
    split at holds
    · cases holds
    · rename_i noFalse
      split at holds
      · cases holds
      · rename_i noUnknown
        match operand with
        | some true => rfl
        | some false => exact absurd member noFalse
        | none => exact absurd member noUnknown
  · intro each
    have noFalse : some false ∉ operands := fun member => absurd (each _ member) (by simp)
    have noUnknown : none ∉ operands := fun member => absurd (each _ member) (by simp)
    rw [if_neg noFalse, if_neg noUnknown]

theorem any_eq_true {operands : List (Option Bool)} :
    any operands = some true ↔ some true ∈ operands := by
  unfold any
  split
  · rename_i member
    simp [member]
  · rename_i missing
    split <;> simp [missing]

end Truth

/-- Equality as a condition: whether null equals something is unknown. -/
def Value.equals (first second : Value) : Option Bool :=
  if first.isNull ∨ second.isNull then none else some (first.same second)

theorem Value.same_string {value : Value} {text : String} :
    value.same (.string text) = true ↔ value = .string text := by
  cases value with
  | string other => simp [same]
  | _ => simp [same]

theorem Value.equals_string {value : Value} {text : String} :
    value.equals (.string text) = some true ↔ value = .string text := by
  constructor
  · intro holds
    unfold equals at holds
    split at holds
    · cases holds
    · exact same_string.mp (Option.some.inj holds)
  · rintro rfl
    simp [equals, isNull, same]

/-! ### Rows -/

/-- What decides whether a condition is true: the values that the paths lead to from the row, the
parameters, and what the store says. -/
structure Row where
  attr : PathKey → Value
  parameters : ParameterMap
  computed : Expr → Value
  tested : Test → Option Bool
  among : Value → Query → Option Bool
  hasRows : Query → Bool

/-- What a marker stands for: null, if there is no parameter of its name. -/
def Row.parameter (row : Row) (name : String) : Value :=
  ((row.parameters.get? name).map (·.value)).getD .null

def Expr.value (row : Row) : Expr → Value
  | .path chain => row.attr chain.key
  | .literal constant => .ofLiteral constant.value
  | .parameter name => row.parameter name.value
  | expr => row.computed expr

/-- Whether the value is one of the items. -/
def Value.isOneOf (value : Value) (items : List Value) : Option Bool :=
  Truth.any (items.map value.equals)

def Test.truth (row : Row) : Test → Option Bool
  | .compare left .equal right => (left.value row).equals (right.value row)
  | .compare left .notEqual right => Truth.negateIf true ((left.value row).equals (right.value row))
  | .inList tested items negated =>
      Truth.negateIf negated ((tested.value row).isOneOf (items.map (Expr.value row)))
  | .inParameter tested parameter negated =>
      match row.parameter parameter.value with
      | .list items => Truth.negateIf negated ((tested.value row).isOneOf items)
      | _ => none
  | .isNull tested negated => some ((tested.value row).isNull != negated)
  | other => row.tested other

namespace Predicate

mutual

/-- Whether the condition is true of the row. -/
def truth (row : Row) : Predicate → Option Bool
  | .and operands => Truth.all (truthOfAll row operands)
  | .or operands => Truth.any (truthOfAll row operands)
  | .not operand => Truth.negateIf true (operand.truth row)
  | .group operand => operand.truth row
  | .test leaf => leaf.truth row
  | .inQuery tested query negated => Truth.negateIf negated (row.among (tested.value row) query)
  | .existsIn query negated => some (row.hasRows query != negated)

def truthOfAll (row : Row) : List Predicate → List (Option Bool)
  | [] => []
  | predicate :: rest => predicate.truth row :: truthOfAll row rest

end

theorem truthOfAll_eq_map (row : Row) (predicates : List Predicate) :
    truthOfAll row predicates = predicates.map (truth row) := by
  induction predicates with
  | nil => rfl
  | cons predicate rest ih => rw [truthOfAll, ih, List.map_cons]

theorem truth_and {row : Row} {operands : List Predicate} :
    (Predicate.and operands).truth row = some true ↔
      ∀ operand ∈ operands, operand.truth row = some true := by
  rw [truth, truthOfAll_eq_map, Truth.all_eq_true, List.forall_mem_map]

theorem truth_or {row : Row} {operands : List Predicate} :
    (Predicate.or operands).truth row = some true ↔
      ∃ operand ∈ operands, operand.truth row = some true := by
  rw [truth, truthOfAll_eq_map, Truth.any_eq_true, List.mem_map]

theorem truth_equality {row : Row} {left right : Expr} :
    (Predicate.equality left right).truth row = (left.value row).equals (right.value row) := rfl

end Predicate

/-! ### Conjuncts -/

open Constraint

/-- The condition is the part, or a conjunction with the part for an operand. -/
inductive Predicate.Conjunct (part : Predicate) : Predicate → Prop where
  | alone : Conjunct part part
  | among {operands : List Predicate} {operand : Predicate} (member : operand ∈ operands)
      (grouped : Grouped part operand) : Conjunct part (.and operands)

namespace Constraint

variable {condition result : Option Predicate} {parts : List Predicate} {part : Predicate}

theorem Grouped.truth {predicate grouped : Predicate} (same : Grouped predicate grouped) (row : Row) :
    grouped.truth row = predicate.truth row := by
  cases same with
  | already inner => rfl
  | now => rfl

/-- Each of the parts is a conjunct of the result. -/
theorem Conjoined.conjunct (conjoined : Conjoined condition parts result) (member : part ∈ parts) :
    ∃ whole, result = some whole ∧ part.Conjunct whole := by
  cases conjoined with
  | unchanged => cases member
  | only other =>
    rw [List.mem_singleton.mp member]
    exact ⟨other, rfl, .alone⟩
  | several _ _ grouped =>
    obtain ⟨operand, among, same⟩ :=
      exists_mem_of_forall₂ grouped part (List.mem_append_right _ member)
    exact ⟨_, rfl, .among among same⟩

end Constraint

/-- A condition is true of a row only if its conjuncts are. -/
theorem Predicate.Conjunct.truth {part whole : Predicate} (conjunct : part.Conjunct whole) {row : Row}
    (holds : whole.truth row = some true) : part.truth row = some true := by
  cases conjunct with
  | alone => exact holds
  | among member grouped =>
    rw [← grouped.truth]
    exact truth_and.mp holds _ member

end QueryGuard
