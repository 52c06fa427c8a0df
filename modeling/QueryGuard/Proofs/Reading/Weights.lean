import Mathlib.Algebra.Ring.Nat
import QueryGuard.Proofs.Reading.NormalForm
import QueryGuard.Proofs.Reading.Wording
/-!
Weights of conditions: a product for AND, a sum for OR and a square for NOT. How conjunctions and
disjunctions are nested in each other of their kind does not matter for the weight, but it shows if
an operator applies to less than the tree says.
-/

set_option autoImplicit false

namespace QueryGuard

/-- The walk that weighs conditions. A leaf weighs two, and so does the comparison that is written
for no operands. -/
def weightWalk : PredicateFold Nat Unit where
  and := fun operands => if operands.isEmpty then 2 else operands.prod
  or := fun operands => if operands.isEmpty then 2 else operands.sum
  not := fun operand => operand ^ 2
  group := id
  test := fun _ => 2
  inQuery := fun _ _ _ => 2
  existsIn := fun _ _ => 2
  query := fun _ => ()

namespace Predicate

def weight : Predicate → Nat := fold weightWalk

theorem weight_unplaced (predicate : Predicate) : predicate.unplaced.weight = predicate.weight := by
  have placeless : weightWalk.Placeless id id :=
    { and := fun operands => by rw [List.map_id]; rfl
      or := fun operands => by rw [List.map_id]; rfl
      not := fun _ => rfl
      group := fun _ => rfl
      test := fun _ => rfl
      inQuery := fun _ _ _ => rfl
      existsIn := fun _ _ => rfl
      query := fun _ => rfl }
  exact placeless.fold_predicate predicate

@[simp] theorem weight_not (operand : Predicate) : operand.not.weight = operand.weight ^ 2 := rfl

@[simp] theorem weight_group (operand : Predicate) : operand.group.weight = operand.weight := rfl

@[simp] theorem weight_test (test : Test) : (Predicate.test test).weight = 2 := rfl

@[simp] theorem weight_inQuery (tested : Expr) (query : Query) (negated : Bool) :
    (Predicate.inQuery tested query negated).weight = 2 := rfl

@[simp] theorem weight_existsIn (query : Query) (negated : Bool) :
    (Predicate.existsIn query negated).weight = 2 := rfl

end Predicate

namespace Connective

/-- What the operands weigh together. -/
def total : Connective → List Nat → Nat
  | and => List.prod
  | or => List.sum

variable {connective : Connective} {operands : List Predicate}

theorem total_append (connective : Connective) (first second : List Nat) :
    connective.total (first ++ second) =
      connective.total [connective.total first, connective.total second] := by
  cases connective <;> simp [total]

theorem total_singleton (connective : Connective) (number : Nat) :
    connective.total [number] = number := by
  cases connective <;> simp [total]

theorem two_le_total {numbers : List Nat} (nonempty : numbers ≠ [])
    (each : ∀ number ∈ numbers, 2 ≤ number) : 2 ≤ connective.total numbers := by
  induction numbers with
  | nil => exact absurd rfl nonempty
  | cons first rest ih =>
    rw [List.forall_mem_cons] at each
    by_cases last : rest = []
    · rw [last, total_singleton]
      exact each.1
    · have others := ih last each.2
      rw [← List.singleton_append, total_append, total_singleton]
      cases connective with
      | and =>
        have both := Nat.mul_le_mul each.1 others
        simp only [total, List.prod_cons, List.prod_nil, Nat.mul_one] at both ⊢
        omega
      | or =>
        simp only [total, List.sum_cons, List.sum_nil] at others ⊢
        omega

theorem weight_make (connective : Connective) (operands : List Predicate) :
    (connective.make operands).weight =
      if operands.isEmpty then 2 else connective.total (operands.map Predicate.weight) := by
  cases connective with
  | and => simp only [make, total, Predicate.weight, Predicate.fold_and, weightWalk, List.isEmpty_map]
  | or => simp only [make, total, Predicate.weight, Predicate.fold_or, weightWalk, List.isEmpty_map]

/-- A condition weighs what its parts weigh together. -/
theorem total_parts {predicate : Predicate} (flat : Flat predicate) (connective : Connective) :
    connective.total ((connective.parts predicate).map Predicate.weight) = predicate.weight := by
  cases flat with
  | @make other operands several _ _ =>
    by_cases same : connective = other
    · subst same
      have nonempty : ¬ operands.isEmpty := by
        rw [List.isEmpty_iff]
        rintro rfl
        contradiction
      rw [parts_make, weight_make, if_neg nonempty]
    · rw [parts_make_other same, List.map_singleton, total_singleton]
  | single alone => rw [alone, List.map_singleton, total_singleton]

theorem total_flatMap_parts (flat : ∀ operand ∈ operands, Flat operand) :
    connective.total ((operands.flatMap connective.parts).map Predicate.weight) =
      connective.total (operands.map Predicate.weight) := by
  induction operands with
  | nil => rfl
  | cons first rest ih =>
    rw [List.forall_mem_cons] at flat
    rw [List.flatMap_cons, List.map_append, total_append, total_parts flat.1, ih flat.2,
      List.map_cons]
    cases connective <;> simp [total]

theorem weight_combine (flat : ∀ operand ∈ operands, Flat operand) :
    (connective.combine operands).weight =
      if operands.isEmpty then 2 else connective.total (operands.map Predicate.weight) := by
  rcases operands with _ | ⟨first, rest⟩
  · cases connective <;> rfl
  · have nonempty : (first :: rest).flatMap connective.parts ≠ [] := by
      rw [List.flatMap_cons]
      exact List.append_ne_nil_of_left_ne_nil
        ((flat first List.mem_cons_self).parts_ne_nil connective) _
    rw [← total_flatMap_parts flat]
    unfold combine
    split
    · rename_i none
      exact absurd none nonempty
    · rename_i only same
      rw [same, List.map_singleton, total_singleton]
      rfl
    · rw [weight_make, if_neg (mt List.isEmpty_iff.mp nonempty)]
      rfl

end Connective

namespace Predicate

@[simp] theorem weight_and (operands : List Predicate) : (Predicate.and operands).weight =
    if operands.isEmpty then 2 else (operands.map weight).prod :=
  Connective.and.weight_make operands

@[simp] theorem weight_or (operands : List Predicate) : (Predicate.or operands).weight =
    if operands.isEmpty then 2 else (operands.map weight).sum :=
  Connective.or.weight_make operands

theorem weight_normal (predicate : Predicate) : predicate.normal.weight = predicate.weight := by
  have flat (operands : List Predicate) : ∀ operand ∈ operands.map normal, Flat operand :=
    List.forall_mem_map.mpr fun operand _ => operand.normal_flat
  have same {operands : List Predicate} (ih : ∀ operand ∈ operands, operand.normal.weight = operand.weight) :
      (operands.map normal).map weight = operands.map weight := by
    rw [List.map_map]
    exact List.map_congr_left ih
  induction predicate using Predicate.induction with
  | and operands ih =>
    rw [normal_and, Connective.weight_combine (flat operands), same ih, List.isEmpty_map, weight_and]
    rfl
  | or operands ih =>
    rw [normal_or, Connective.weight_combine (flat operands), same ih, List.isEmpty_map, weight_or]
    rfl
  | not operand ih => rw [normal_not, weight_not, weight_not, ih]
  | group operand ih => exact ih
  | test test => rfl
  | inQuery tested query negated => rw [normal_inQuery, weight_inQuery, weight_inQuery]
  | existsIn query negated => rw [normal_existsIn, weight_existsIn, weight_existsIn]

theorem two_le_weight (predicate : Predicate) : 2 ≤ predicate.weight := by
  have joined (connective : Connective) {operands : List Predicate}
      (ih : ∀ operand ∈ operands, 2 ≤ operand.weight) :
      2 ≤ (connective.make operands).weight := by
    rw [Connective.weight_make]
    split
    · exact Nat.le_refl 2
    · rename_i nonempty
      rw [List.isEmpty_iff] at nonempty
      exact Connective.two_le_total (mt List.map_eq_nil_iff.mp nonempty) (List.forall_mem_map.mpr ih)
  induction predicate using Predicate.induction with
  | and operands ih => exact joined .and ih
  | or operands ih => exact joined .or ih
  | not operand ih => exact Nat.le_trans ih (Nat.le_self_pow (by decide) _)
  | group operand ih => exact ih
  | test test => exact Nat.le_refl 2
  | inQuery tested query negated => exact Nat.le_refl 2
  | existsIn query negated => exact Nat.le_refl 2

/-! ### Disjunctions of conjunctions -/

/-- What the conditions of a conjunction weigh together. -/
def weightOfAll (conjuncts : List Predicate) : Nat := (conjuncts.map weight).prod

/-- What the conjunctions of a disjunction weigh together. -/
def weightOfAny (disjuncts : List (List Predicate)) : Nat := (disjuncts.map weightOfAll).sum

/-- There is a disjunct, and each has a conjunct. -/
def Full (disjuncts : List (List Predicate)) : Prop :=
  disjuncts ≠ [] ∧ ∀ conjuncts ∈ disjuncts, conjuncts ≠ []

theorem weight_allOf {conjuncts : List Predicate} (nonempty : conjuncts ≠ []) :
    (allOf conjuncts).weight = weightOfAll conjuncts := by
  rcases conjuncts with _ | ⟨first, _ | ⟨second, rest⟩⟩
  · exact absurd rfl nonempty
  · simp [allOf, weightOfAll]
  · simp [allOf, weightOfAll]

theorem weight_anyOf {disjuncts : List Predicate} (nonempty : disjuncts ≠ []) :
    (anyOf disjuncts).weight = (disjuncts.map weight).sum := by
  rcases disjuncts with _ | ⟨first, _ | ⟨second, rest⟩⟩
  · exact absurd rfl nonempty
  · simp [anyOf]
  · simp [anyOf]

theorem weight_ofDisjuncts {disjuncts : List (List Predicate)} (full : Full disjuncts) :
    (ofDisjuncts disjuncts).weight = weightOfAny disjuncts := by
  rw [ofDisjuncts, weight_anyOf (mt List.map_eq_nil_iff.mp full.1), List.map_map, weightOfAny]
  exact congrArg List.sum (List.map_congr_left fun conjuncts found => weight_allOf (full.2 _ found))

@[simp] theorem weightOfAll_nil : weightOfAll [] = 1 := rfl

@[simp] theorem weightOfAll_cons (first : Predicate) (rest : List Predicate) :
    weightOfAll (first :: rest) = first.weight * weightOfAll rest := List.prod_cons

@[simp] theorem weightOfAll_append (first second : List Predicate) :
    weightOfAll (first ++ second) = weightOfAll first * weightOfAll second := by
  rw [weightOfAll, List.map_append, List.prod_append, weightOfAll, weightOfAll]

@[simp] theorem weightOfAny_nil : weightOfAny [] = 0 := rfl

@[simp] theorem weightOfAny_cons (first : List Predicate) (rest : List (List Predicate)) :
    weightOfAny (first :: rest) = weightOfAll first + weightOfAny rest := List.sum_cons

theorem weightOfAny_single (operand : Predicate) : weightOfAny [[operand]] = operand.weight := by
  simp

theorem two_le_weightOfAll {conjuncts : List Predicate} (nonempty : conjuncts ≠ []) :
    2 ≤ weightOfAll conjuncts := by
  rw [← weight_allOf nonempty]
  exact two_le_weight _

theorem two_le_weightOfAny {disjuncts : List (List Predicate)} (full : Full disjuncts) :
    2 ≤ weightOfAny disjuncts := by
  rw [← weight_ofDisjuncts full]
  exact two_le_weight _

namespace Full

variable {left right disjuncts : List (List Predicate)}

theorem single (operand : Predicate) : Full [[operand]] := by simp [Full]

theorem rest {first : List Predicate} (full : Full (first :: disjuncts)) (more : disjuncts ≠ []) :
    Full disjuncts :=
  ⟨more, fun conjuncts found => full.2 conjuncts (List.mem_cons_of_mem _ found)⟩

theorem cons {conjuncts : List Predicate} (nonempty : conjuncts ≠ [])
    (others : ∀ conjuncts ∈ disjuncts, conjuncts ≠ []) : Full (conjuncts :: disjuncts) :=
  ⟨List.cons_ne_nil _ _, List.forall_mem_cons.mpr ⟨nonempty, others⟩⟩

theorem fuse (first : Full left) (second : Full right) : Full (fuse left right) := by
  induction left with
  | nil => exact second
  | cons conjuncts others ih =>
    have nonempty := first.2 conjuncts List.mem_cons_self
    cases others with
    | nil =>
      obtain ⟨next, rest, rfl⟩ := List.exists_cons_of_ne_nil second.1
      exact cons (List.append_ne_nil_of_left_ne_nil nonempty _)
        fun found among => second.2 found (List.mem_cons_of_mem _ among)
    | cons next rest => exact cons nonempty (ih (first.rest (List.cons_ne_nil _ _))).2

theorem modifyHead {f : Predicate → Predicate} (full : Full disjuncts) :
    Full (disjuncts.modifyHead (·.modifyHead f)) := by
  refine ⟨by simpa using full.1, forall_mem_modifyHead (fun conjuncts nonempty => ?_) full.2⟩
  simpa using nonempty

end Full

/-- Between two disjunctions, AND applies to less than both unless each is one conjunction. -/
theorem weightOfAny_fuse {left right : List (List Predicate)} (first : Full left)
    (second : Full right) :
    weightOfAny (fuse left right) < weightOfAny left * weightOfAny right ∨
      weightOfAny (fuse left right) = weightOfAny left * weightOfAny right ∧
        left.length = 1 ∧ right.length = 1 := by
  have positive := two_le_weightOfAny second
  induction left with
  | nil => exact absurd rfl first.1
  | cons conjuncts others ih =>
    have heavy := two_le_weightOfAll (first.2 conjuncts List.mem_cons_self)
    cases others with
    | nil =>
      obtain ⟨next, rest, rfl⟩ := List.exists_cons_of_ne_nil second.1
      rw [Predicate.fuse]
      simp only [weightOfAny_cons, weightOfAll_append, weightOfAny_nil, Nat.add_zero, Nat.mul_add]
      cases rest with
      | nil => exact .inr ⟨rfl, rfl, rfl⟩
      | cons third rest =>
        have others := two_le_weightOfAny (second.rest (List.cons_ne_nil _ _))
        have more := Nat.mul_le_mul_right (weightOfAny (third :: rest)) heavy
        left
        omega
    | cons next rest =>
      left
      have below : weightOfAny (Predicate.fuse (next :: rest) right) ≤
          weightOfAny (next :: rest) * weightOfAny right := by
        rcases ih (first.rest (List.cons_ne_nil _ _)) with strict | ⟨same, _⟩
        · exact Nat.le_of_lt strict
        · exact Nat.le_of_eq same
      have more : weightOfAll conjuncts * 2 ≤ weightOfAll conjuncts * weightOfAny right :=
        Nat.mul_le_mul_left _ positive
      rw [fuse, weightOfAny_cons, weightOfAny_cons, Nat.add_mul]
      omega

theorem Full.foldr_fuse {α : Type} {items : List α} {values : α → List (List Predicate)}
    (nonempty : items ≠ []) (full : ∀ x ∈ items, Full (values x)) :
    Full ((items.map values).foldr Predicate.fuse []) := by
  induction items with
  | nil => exact absurd rfl nonempty
  | cons first rest ih =>
    rw [List.forall_mem_cons] at full
    rw [List.map_cons, List.foldr_cons]
    by_cases last : rest = []
    · rw [last, List.map_nil, List.foldr_nil, fuse_nil]
      exact full.1
    · exact full.1.fuse (ih last full.2)

theorem Full.saidIn {operand : Predicate} (full : Full operand.said) (weakest : Strength) :
    Full (operand.saidIn weakest) := by
  unfold Predicate.saidIn enclosed
  split
  · exact single _
  · exact full

/-- Something is said by each text. -/
theorem full_said (predicate : Predicate) : Full predicate.said := by
  induction predicate using Predicate.induction with
  | and operands ih =>
    rw [said_and]
    split
    · exact .single always
    · rename_i nonempty
      rw [List.isEmpty_iff] at nonempty
      exact .foldr_fuse nonempty fun operand found => (ih operand found).saidIn .and
  | or operands ih =>
    rw [said_or]
    split
    · exact .single never
    · rename_i nonempty
      rw [List.isEmpty_iff] at nonempty
      obtain ⟨first, rest, rfl⟩ := List.exists_cons_of_ne_nil nonempty
      refine ⟨?_, fun conjuncts found => ?_⟩
      · rw [List.flatMap_cons]
        exact List.append_ne_nil_of_left_ne_nil (ih first List.mem_cons_self).1 _
      · obtain ⟨operand, among, found⟩ := List.mem_flatMap.mp found
        exact (ih operand among).2 conjuncts found
  | not operand ih => exact (ih.saidIn .not).modifyHead
  | group operand ih => exact .single _
  | test test => exact .single _
  | inQuery tested query negated => exact reading_ne_nil _
  | existsIn query negated => exact reading_ne_nil _

/-- Factors that are as large together as larger ones are as large each. -/
theorem eq_of_mul_eq {a b c d : Nat} (first : a ≤ c) (second : b ≤ d) (ha : 0 < a) (hb : 0 < b)
    (same : a * b = c * d) : a = c ∧ b = d := by
  have left : a * b ≤ a * d := Nat.mul_le_mul_left a second
  have right : a * d ≤ c * d := Nat.mul_le_mul_right d first
  have hd : 0 < d := Nat.lt_of_lt_of_le hb second
  exact ⟨Nat.eq_of_mul_eq_mul_right hd (by omega), Nat.eq_of_mul_eq_mul_left ha (by omega)⟩

section

variable {α : Type} {items : List α} {values : α → List (List Predicate)} {weights : α → Nat}

/-- Between several disjunctions, AND applies to less than all unless each is one conjunction. -/
theorem weightOfAny_foldr_fuse (nonempty : items ≠ []) (full : ∀ x ∈ items, Full (values x))
    (below : ∀ x ∈ items, weightOfAny (values x) ≤ weights x) :
    weightOfAny ((items.map values).foldr fuse []) ≤ (items.map weights).prod ∧
      (weightOfAny ((items.map values).foldr fuse []) = (items.map weights).prod →
        ∀ x ∈ items, weightOfAny (values x) = weights x ∧
          (2 ≤ items.length → (values x).length = 1)) := by
  induction items with
  | nil => exact absurd rfl nonempty
  | cons first rest ih =>
    rw [List.forall_mem_cons] at full below
    rw [List.map_cons, List.map_cons, List.foldr_cons, List.prod_cons]
    by_cases last : rest = []
    · subst last
      simpa [fuse_nil] using below.1
    · obtain ⟨le, eq⟩ := ih last full.2 below.2
      have others := Full.foldr_fuse last full.2
      have bound := Nat.mul_le_mul below.1 le
      rcases weightOfAny_fuse full.1 others with strict | ⟨same, one, oneMore⟩
      · have less := Nat.lt_of_lt_of_le strict bound
        exact ⟨Nat.le_of_lt less, fun equal => absurd equal (Nat.ne_of_lt less)⟩
      · rw [same]
        refine ⟨bound, fun equal => ?_⟩
        have positive := two_le_weightOfAny full.1
        have positive' := two_le_weightOfAny others
        obtain ⟨sameFirst, sameRest⟩ :=
          eq_of_mul_eq below.1 le (by omega) (by omega) equal
        have each := eq sameRest
        rw [List.forall_mem_cons]
        refine ⟨⟨sameFirst, fun _ => one⟩, fun x found => ⟨(each x found).1, fun _ => ?_⟩⟩
        rcases rest with _ | ⟨second, _ | ⟨third, rest⟩⟩
        · exact absurd rfl last
        · rw [List.map_singleton, List.foldr_cons, List.foldr_nil, fuse_nil] at oneMore
          rw [List.mem_singleton.mp found]
          exact oneMore
        · exact (each x found).2 (by simp)

theorem weightOfAny_flatMap (items : List α) (values : α → List (List Predicate)) :
    weightOfAny (items.flatMap values) = (items.map fun x => weightOfAny (values x)).sum := by
  induction items with
  | nil => rfl
  | cons first rest ih =>
    rw [List.flatMap_cons, List.map_cons, List.sum_cons, ← ih, weightOfAny, List.map_append,
      List.sum_append, weightOfAny, weightOfAny]

/-- Numbers that are as large together as larger ones are as large each. -/
theorem sum_eq_of_le {f g : α → Nat} (below : ∀ x ∈ items, f x ≤ g x) :
    (items.map f).sum ≤ (items.map g).sum ∧
      ((items.map f).sum = (items.map g).sum → ∀ x ∈ items, f x = g x) := by
  induction items with
  | nil => simp
  | cons first rest ih =>
    rw [List.forall_mem_cons] at below
    obtain ⟨le, eq⟩ := ih below.2
    rw [List.map_cons, List.map_cons, List.sum_cons, List.sum_cons]
    refine ⟨Nat.add_le_add below.1 le, fun equal => List.forall_mem_cons.mpr ⟨?_, eq ?_⟩⟩ <;> omega

end

theorem weight_denied_cases (operand : Predicate) :
    operand.denied.weight < operand.weight ^ 2 ∨ operand.denied = operand.not := by
  unfold denied
  split
  · exact .inl (show 2 < 4 by decide)
  · exact .inr rfl

theorem weight_denied_le (operand : Predicate) : operand.denied.weight ≤ operand.weight ^ 2 := by
  rcases operand.weight_denied_cases with less | same
  · exact Nat.le_of_lt less
  · exact Nat.le_of_eq (by rw [same, weight_not])

/-- A square of a sum exceeds what is squared in it, unless there is nothing else. -/
theorem lt_square {denied operand factor others : Nat} (squared : denied ≤ operand ^ 2)
    (heavy : 2 ≤ operand) (positive : 1 ≤ factor) (more : 2 ≤ factor ∨ 1 ≤ others) :
    denied * factor + others < (operand * factor + others) ^ 2 := by
  have expanded : (operand * factor + others) ^ 2 =
      operand ^ 2 * factor * factor + 2 * (operand * factor * others) + others * others := by
    grind
  have first : denied * factor ≤ operand ^ 2 * factor := Nat.mul_le_mul_right _ squared
  have product : 1 ≤ operand * factor := Nat.mul_pos (by omega) positive
  have second : others ≤ operand * factor * others := Nat.le_mul_of_pos_left _ product
  have square : 1 ≤ operand ^ 2 * factor := Nat.mul_pos (Nat.pow_pos (by omega)) positive
  rcases more with more | more
  · have third := Nat.mul_le_mul_left (operand ^ 2 * factor) more
    omega
  · have third := Nat.mul_le_mul_left (operand ^ 2 * factor) positive
    omega

/-- NOT in front of a disjunction applies to less than it unless it is one condition, and not
EXISTS. -/
theorem weightOfAny_denied {disjuncts : List (List Predicate)} (full : Full disjuncts) :
    weightOfAny (disjuncts.modifyHead (·.modifyHead denied)) < weightOfAny disjuncts ^ 2 ∨
      ∃ operand, disjuncts = [[operand]] ∧ operand.denied = operand.not := by
  obtain ⟨conjuncts, rest, rfl⟩ := List.exists_cons_of_ne_nil full.1
  obtain ⟨operand, more, rfl⟩ := List.exists_cons_of_ne_nil (full.2 conjuncts List.mem_cons_self)
  simp only [List.modifyHead_cons, weightOfAny_cons, weightOfAll_cons]
  have heavy := two_le_weight operand
  have squared := operand.weight_denied_le
  by_cases alone : more = []
  · subst alone
    by_cases last : rest = []
    · subst last
      rcases operand.weight_denied_cases with less | same
      · exact .inl (by simpa using less)
      · exact .inr ⟨operand, rfl, same⟩
    · have others := two_le_weightOfAny (full.rest last)
      exact .inl (lt_square squared heavy (Nat.le_refl 1) (.inr (by omega)))
  · have factor := two_le_weightOfAll alone
    exact .inl (lt_square squared heavy (by omega) (.inl factor))

end Predicate

end QueryGuard
