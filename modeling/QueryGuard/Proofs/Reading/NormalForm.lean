import QueryGuard.Proofs.Reading.Reread
/-!
Conditions up to the way they are put together: without groups, and with each conjunction and
disjunction flat and of two operands at least. Printing and parsing keeps this form.
-/

set_option autoImplicit false

namespace QueryGuard

/-- What joins conditions. -/
inductive Connective where
  | and | or
deriving DecidableEq, Repr

namespace Connective

/-- The operands with the connective between them. -/
def make : Connective → List Predicate → Predicate
  | and => .and
  | or => .or

/-- The comparison that stands for no operands. -/
def empty : Connective → Predicate
  | and => .always
  | or => .never

/-- The operands of the connective, or the condition itself. -/
def parts : Connective → Predicate → List Predicate
  | and, .and operands => operands
  | or, .or operands => operands
  | _, other => [other]

/-- The operands joined, those with the same connective taken apart. -/
def combine (connective : Connective) (operands : List Predicate) : Predicate :=
  match operands.flatMap connective.parts with
  | [] => connective.empty
  | [only] => only
  | several => connective.make several

theorem parts_make (connective : Connective) (operands : List Predicate) :
    connective.parts (connective.make operands) = operands := by
  cases connective <;> rfl

theorem parts_make_other {connective other : Connective} (different : connective ≠ other)
    (operands : List Predicate) :
    connective.parts (other.make operands) = [other.make operands] := by
  cases connective <;> cases other <;> first | rfl | exact absurd rfl different

end Connective

/-- No condition is joined by the connective that it is itself joined with. -/
inductive Flat : Predicate → Prop where
  | make {connective : Connective} {operands : List Predicate} (several : 2 ≤ operands.length)
      (each : ∀ operand ∈ operands, Flat operand)
      (apart : ∀ operand ∈ operands, connective.parts operand = [operand]) :
      Flat (connective.make operands)
  | single {predicate : Predicate}
      (alone : ∀ connective : Connective, connective.parts predicate = [predicate]) :
      Flat predicate

namespace Flat

variable {predicate : Predicate}

theorem parts_ne_nil (flat : Flat predicate) (connective : Connective) :
    connective.parts predicate ≠ [] := by
  cases flat with
  | @make other operands several _ _ =>
    by_cases same : connective = other
    · subst same
      rw [Connective.parts_make]
      rintro rfl
      contradiction
    · rw [Connective.parts_make_other same]
      exact List.cons_ne_nil _ _
  | single alone =>
    rw [alone]
    exact List.cons_ne_nil _ _

theorem parts_apart (flat : Flat predicate) (connective : Connective) :
    ∀ part ∈ connective.parts predicate, Flat part ∧ connective.parts part = [part] := by
  cases flat with
  | @make other operands several each apart =>
    by_cases same : connective = other
    · subst same
      rw [Connective.parts_make]
      exact fun part found => ⟨each part found, apart part found⟩
    · have alone := Connective.parts_make_other same operands
      rw [alone]
      intro part found
      rw [List.mem_singleton.mp found]
      exact ⟨.make several each apart, alone⟩
  | single alone =>
    rw [alone]
    intro part found
    rw [List.mem_singleton.mp found]
    exact ⟨.single alone, alone connective⟩

end Flat

namespace Connective

variable {connective : Connective} {operands : List Predicate}

/-- The parts of the operands are flat and cannot be taken apart further. -/
theorem parts_of_flat (connective : Connective) (flat : ∀ operand ∈ operands, Flat operand) :
    ∀ part ∈ operands.flatMap connective.parts, Flat part ∧ connective.parts part = [part] := by
  intro part found
  obtain ⟨operand, member, found⟩ := List.mem_flatMap.mp found
  exact (flat operand member).parts_apart connective part found

theorem combine_flat (flat : ∀ operand ∈ operands, Flat operand) :
    Flat (connective.combine operands) := by
  have apart := parts_of_flat connective flat
  unfold combine
  split
  · exact .single fun other => by cases other <;> cases connective <;> rfl
  · rename_i only same
    rw [same] at apart
    exact (apart only List.mem_cons_self).1
  · rename_i nonempty several
    refine .make ?_ (fun part found => (apart part found).1) fun part found => (apart part found).2
    rcases list : operands.flatMap connective.parts with _ | ⟨first, _ | ⟨second, rest⟩⟩
    · exact absurd list nonempty
    · exact absurd list (several first)
    · simp

/-- What was joined is taken apart again. -/
theorem parts_combine (flat : ∀ operand ∈ operands, Flat operand) (nonempty : operands ≠ []) :
    connective.parts (connective.combine operands) = operands.flatMap connective.parts := by
  have apart := parts_of_flat connective flat
  unfold combine
  split
  · rename_i none
    obtain ⟨first, rest, rfl⟩ := List.exists_cons_of_ne_nil nonempty
    rw [List.flatMap_cons, List.append_eq_nil_iff] at none
    exact absurd none.1 ((flat first List.mem_cons_self).parts_ne_nil connective)
  · rename_i only same
    rw [same] at apart ⊢
    exact (apart only List.mem_cons_self).2
  · exact parts_make connective _

/-- A flat condition is what joins it alone. -/
theorem combine_singleton {predicate : Predicate} (flat : Flat predicate) :
    connective.combine [predicate] = predicate := by
  unfold combine
  rw [List.flatMap_singleton]
  cases flat with
  | @make other operands several each apart =>
    by_cases same : connective = other
    · subst same
      rw [parts_make]
      rcases operands with _ | ⟨first, _ | ⟨second, rest⟩⟩
      · contradiction
      · simp at several
      · rfl
    · rw [parts_make_other same]
  | single alone => rw [alone]

/-- Operands may be joined in groups. -/
theorem combine_flatMap {α : Type} {items : List α} {f g : α → List Predicate}
    (same : ∀ x ∈ items, (f x).flatMap connective.parts = (g x).flatMap connective.parts) :
    connective.combine (items.flatMap f) = connective.combine (items.flatMap g) := by
  have equal : (items.flatMap f).flatMap connective.parts =
      (items.flatMap g).flatMap connective.parts := by
    rw [List.flatMap_assoc, List.flatMap_assoc, List.flatMap_congr same]
  unfold combine
  rw [equal]

end Connective

/-- The walk that normalizes conditions. -/
def normalWalk : PredicateFold Predicate Query where
  and := Connective.and.combine
  or := Connective.or.combine
  not := .not
  group := id
  test := .test
  inQuery := .inQuery
  existsIn := .existsIn
  query := id

/-- The condition without groups; nested conjunctions and disjunctions are flat, empty ones are
comparisons, and those of one operand are that operand. -/
def Predicate.normal : Predicate → Predicate := Predicate.fold normalWalk

/-- The query with all conditions normalized. -/
def Query.normal (query : Query) : Query := query.map Predicate.normal

namespace Predicate

@[simp] theorem normal_and (operands : List Predicate) :
    (Predicate.and operands).normal = Connective.and.combine (operands.map normal) := by
  simp only [normal, fold_and, normalWalk]

@[simp] theorem normal_or (operands : List Predicate) :
    (Predicate.or operands).normal = Connective.or.combine (operands.map normal) := by
  simp only [normal, fold_or, normalWalk]

@[simp] theorem normal_not (operand : Predicate) : operand.not.normal = operand.normal.not := rfl

@[simp] theorem normal_group (operand : Predicate) : operand.group.normal = operand.normal := rfl

@[simp] theorem normal_test (test : Test) : (Predicate.test test).normal = .test test := rfl

theorem fold_normalWalk (query : Query) : query.fold normalWalk = query.normal :=
  Query.fold_eq normalWalk query

@[simp] theorem normal_inQuery (tested : Expr) (query : Query) (negated : Bool) :
    (Predicate.inQuery tested query negated).normal = .inQuery tested query.normal negated := by
  rw [normal, fold_inQuery, fold_normalWalk]
  rfl

@[simp] theorem normal_existsIn (query : Query) (negated : Bool) :
    (Predicate.existsIn query negated).normal = .existsIn query.normal negated := by
  rw [normal, fold_existsIn, fold_normalWalk]
  rfl

theorem normal_flat (predicate : Predicate) : Flat predicate.normal := by
  have alone : ∀ {leaf : Predicate}, (∀ connective : Connective, connective.parts leaf = [leaf]) →
      Flat leaf := .single
  induction predicate using Predicate.induction with
  | and operands ih =>
    rw [normal_and]
    exact Connective.combine_flat (by simpa using ih)
  | or operands ih =>
    rw [normal_or]
    exact Connective.combine_flat (by simpa using ih)
  | not operand => exact alone fun connective => by cases connective <;> rfl
  | group operand ih => exact ih
  | test test => exact alone fun connective => by cases connective <;> rfl
  | inQuery tested query negated => exact alone fun connective => by cases connective <;> rfl
  | existsIn query negated => exact alone fun connective => by cases connective <;> rfl

theorem normal_allOf (operands : List Predicate) :
    (allOf operands).normal = Connective.and.combine (operands.map normal) := by
  rcases operands with _ | ⟨first, _ | ⟨second, rest⟩⟩
  · exact normal_and []
  · exact (Connective.combine_singleton first.normal_flat).symm
  · exact normal_and _

theorem normal_anyOf (operands : List Predicate) :
    (anyOf operands).normal = Connective.or.combine (operands.map normal) := by
  rcases operands with _ | ⟨first, _ | ⟨second, rest⟩⟩
  · exact normal_or []
  · exact (Connective.combine_singleton first.normal_flat).symm
  · exact normal_or _

theorem normal_ofDisjuncts (disjuncts : List (List Predicate)) :
    (ofDisjuncts disjuncts).normal =
      Connective.or.combine (disjuncts.map fun conjuncts => (allOf conjuncts).normal) := by
  rw [ofDisjuncts, normal_anyOf, List.map_map]
  rfl

/-! ### What is read back -/

theorem conjunctsOf_ne_nil {disjuncts : List (List Predicate)}
    (each : ∀ conjuncts ∈ disjuncts, conjuncts ≠ []) : conjunctsOf disjuncts ≠ [] := by
  unfold conjunctsOf
  split
  · exact each _ List.mem_cons_self
  · exact List.cons_ne_nil _ _

/-- There is a disjunct, and each has a conjunct. -/
theorem reading_ne_nil (predicate : Predicate) :
    predicate.reading ≠ [] ∧ ∀ conjuncts ∈ predicate.reading, conjuncts ≠ [] := by
  have single : ∀ only : Predicate, [[only]] ≠ [] ∧ ∀ conjuncts ∈ [[only]], conjuncts ≠ [] := by
    simp
  induction predicate using Predicate.induction with
  | and operands ih =>
    rw [reading_and]
    rcases operands with _ | ⟨first, rest⟩
    · exact single always
    · refine ⟨List.cons_ne_nil _ _, fun conjuncts found => ?_⟩
      have nonempty := conjunctsOf_ne_nil (ih first List.mem_cons_self).2
      rw [List.mem_singleton.mp found, List.flatMap_cons]
      exact List.append_ne_nil_of_left_ne_nil nonempty _
  | or operands ih =>
    rw [reading_or]
    rcases operands with _ | ⟨first, rest⟩
    · exact single never
    · refine ⟨?_, fun conjuncts found => ?_⟩
      · change (first :: rest).flatMap reading ≠ []
        rw [List.flatMap_cons]
        exact List.append_ne_nil_of_left_ne_nil (ih first List.mem_cons_self).1 _
      · obtain ⟨operand, member, among⟩ := List.mem_flatMap.mp found
        exact (ih operand member).2 conjuncts among
  | not operand => exact single _
  | group operand => exact single _
  | test test => exact single _
  | inQuery tested query negated =>
    rw [reading_inQuery]
    exact single _
  | existsIn query negated =>
    rw [reading_existsIn]
    exact single _

section

variable {operand : Predicate} {disjuncts : List (List Predicate)}

/-- What AND joins for an operand has the operand's parts. -/
theorem parts_conjunctsOf (nonempty : ∀ conjuncts ∈ disjuncts, conjuncts ≠ [])
    (same : (ofDisjuncts disjuncts).normal = operand.normal) :
    ((conjunctsOf disjuncts).map normal).flatMap Connective.and.parts =
      Connective.and.parts operand.normal := by
  unfold conjunctsOf
  split
  · rename_i conjuncts
    have joined : operand.normal = Connective.and.combine (conjuncts.map normal) := by
      rw [← same, ← normal_allOf]
      rfl
    rw [joined, Connective.parts_combine]
    · exact fun part found => by
        obtain ⟨conjunct, _, rfl⟩ := List.mem_map.mp found
        exact conjunct.normal_flat
    · simpa using nonempty conjuncts List.mem_cons_self
  · rw [List.map_singleton, normal_group, same, List.flatMap_singleton]

/-- The disjuncts that an operand is read as have the operand's parts. -/
theorem parts_disjuncts (nonempty : disjuncts ≠ [])
    (same : (ofDisjuncts disjuncts).normal = operand.normal) :
    (disjuncts.map fun conjuncts => (allOf conjuncts).normal).flatMap Connective.or.parts =
      Connective.or.parts operand.normal := by
  rw [normal_ofDisjuncts] at same
  rw [← same, Connective.parts_combine]
  · exact fun part found => by
      obtain ⟨conjuncts, _, rfl⟩ := List.mem_map.mp found
      exact (allOf conjuncts).normal_flat
  · simpa using nonempty

theorem normal_operandOf (same : (ofDisjuncts disjuncts).normal = operand.normal) :
    (operandOf disjuncts).normal = operand.normal := by
  rw [← same]
  unfold operandOf
  split
  · rfl
  · rw [normal_group]

end

/-- Conditions that have the same normal form make queries that have. -/
theorem normal_map {query : Query} {f : Predicate → Predicate}
    (same : ∀ condition ∈ query.conditions, (f condition).normal = condition.normal) :
    Query.normal (query.map f) = query.normal := by
  rw [Query.normal, Select.map_map]
  exact Select.map_congr same

/-- Printing and parsing keeps the normal form. -/
theorem normal_reread (predicate : Predicate) : predicate.reread.normal = predicate.normal := by
  induction predicate using Predicate.induction with
  | and operands ih =>
    rw [reread, reading_and, normal_and]
    rcases operands with _ | ⟨first, rest⟩
    · rfl
    · change (allOf ((first :: rest).flatMap fun operand => conjunctsOf operand.reading)).normal = _
      rw [normal_allOf, List.map_flatMap, List.map_eq_flatMap]
      apply Connective.combine_flatMap
      intro operand found
      rw [parts_conjunctsOf operand.reading_ne_nil.2 (ih operand found), List.flatMap_singleton]
  | or operands ih =>
    rw [reread, reading_or, normal_or]
    rcases operands with _ | ⟨first, rest⟩
    · rfl
    · change (ofDisjuncts ((first :: rest).flatMap reading)).normal = _
      rw [normal_ofDisjuncts, List.map_flatMap, List.map_eq_flatMap]
      apply Connective.combine_flatMap
      intro operand found
      rw [parts_disjuncts operand.reading_ne_nil.1 (ih operand found), List.flatMap_singleton]
  | not operand ih =>
    change (Predicate.not (operandOf operand.reading)).normal = _
    rw [normal_not, normal_not, normal_operandOf ih]
  | group operand ih => exact ih
  | test test => rfl
  | inQuery tested query negated ih =>
    rw [reread, reading_inQuery]
    change (Predicate.inQuery tested query.reread negated).normal = _
    rw [normal_inQuery, normal_inQuery, Query.reread, normal_map ih]
  | existsIn query negated ih =>
    rw [reread, reading_existsIn]
    change (Predicate.existsIn query.reread negated).normal = _
    rw [normal_existsIn, normal_existsIn, Query.reread, normal_map ih]

end Predicate

theorem Query.normal_reread (query : Query) : query.reread.normal = query.normal :=
  Predicate.normal_map fun condition _ => condition.normal_reread

/-! ### Places -/

namespace Connective

variable (connective : Connective)

theorem parts_unplaced (predicate : Predicate) :
    connective.parts predicate.unplaced = (connective.parts predicate).map Predicate.unplaced := by
  cases predicate <;> cases connective <;> simp [parts]

theorem combine_unplaced (operands : List Predicate) :
    (connective.combine operands).unplaced =
      connective.combine (operands.map Predicate.unplaced) := by
  have parts : (operands.map Predicate.unplaced).flatMap connective.parts =
      (operands.flatMap connective.parts).map Predicate.unplaced := by
    rw [List.flatMap_map, List.map_flatMap]
    exact congrArg (operands.flatMap ·) (funext connective.parts_unplaced)
  unfold combine
  rw [parts]
  rcases operands.flatMap connective.parts with _ | ⟨first, _ | ⟨second, rest⟩⟩
  · cases connective <;> rfl
  · rfl
  · cases connective <;> simp [make]

end Connective

/-- It is enough to know of the conditions of a query that places do not matter to them. -/
theorem Query.normal_unplaced_of {query : Query} (same : ∀ condition ∈ query.conditions,
    condition.unplaced.normal = condition.normal.unplaced) :
    query.unplaced.normal = query.normal.unplaced := by
  have moved : query.map (Predicate.normal ∘ Predicate.unplaced) =
      query.map (Predicate.unplaced ∘ Predicate.normal) := Select.map_congr same
  rw [unplaced_eq, unplaced_eq, normal, normal, Select.map_map, ← moved, ← Select.unplaced_map,
    Select.map_map]

theorem Predicate.normal_unplaced (predicate : Predicate) :
    predicate.unplaced.normal = predicate.normal.unplaced := by
  induction predicate using Predicate.induction with
  | and operands ih =>
    rw [unplaced_and, normal_and, normal_and, Connective.combine_unplaced, List.map_map,
      List.map_map]
    exact congrArg _ (List.map_congr_left ih)
  | or operands ih =>
    rw [unplaced_or, normal_or, normal_or, Connective.combine_unplaced, List.map_map,
      List.map_map]
    exact congrArg _ (List.map_congr_left ih)
  | not operand ih => rw [unplaced_not, normal_not, normal_not, unplaced_not, ih]
  | group operand ih => exact ih
  | test test => rfl
  | inQuery tested inner negated ih =>
    rw [unplaced_inQuery, normal_inQuery, normal_inQuery, unplaced_inQuery,
      Query.normal_unplaced_of ih]
  | existsIn inner negated ih =>
    rw [unplaced_existsIn, normal_existsIn, normal_existsIn, unplaced_existsIn,
      Query.normal_unplaced_of ih]

theorem Query.normal_unplaced (query : Query) :
    query.unplaced.normal = query.normal.unplaced :=
  normal_unplaced_of fun condition _ => condition.normal_unplaced

/-- The text of a tree that can be written down is read as a tree of the same normal form. -/
theorem Query.Printable.parse_normal {query : Query} (printable : query.Printable) {depth : Nat}
    (within : query.nesting ≤ depth) :
    ∃ reread, Query.parse query.text depth = .ok reread ∧
      reread.normal.unplaced = query.normal.unplaced := by
  obtain ⟨reread, result, same⟩ := printable.parse_text within
  refine ⟨reread, result, ?_⟩
  rw [← normal_unplaced, same, normal_unplaced, normal_reread]

end QueryGuard
