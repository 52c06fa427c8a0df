import QueryGuard.Proofs.Reading.Weights
/-!
Which conditions keep their normal form when they are written and parsed: those whose text has
parentheses around each operand that binds more weakly than the operator in front of it or behind it.
-/

set_option autoImplicit false

namespace QueryGuard

namespace Predicate

/-- What is written for the condition: conjunctions and disjunctions of one operand are taken off,
unless parentheses are written around the operand. -/
def bare : Predicate → Predicate
  | .and [only] => if only.printed.strength = .or then .and [only] else only.bare
  | .or [only] => only.bare
  | other => other

/-- If what is written for the operand binds more weakly than the operator, parentheses are written
around it. -/
def Keeps (weakest : Strength) (operand : Predicate) : Prop :=
  operand.bare.printed.strength.rank < weakest.rank →
    operand.printed.strength.rank < weakest.rank

/-- Operators apply to the same operands in the text of the condition as in the tree. -/
inductive Bracketed : Predicate → Prop where
  | and {operands : List Predicate} (each : ∀ operand ∈ operands, Bracketed operand)
      (apart : 2 ≤ operands.length → ∀ operand ∈ operands, operand.Keeps .and) :
      Bracketed (.and operands)
  | or {operands : List Predicate} (each : ∀ operand ∈ operands, Bracketed operand) :
      Bracketed (.or operands)
  | not {operand : Predicate} (inner : Bracketed operand) (apart : operand.Keeps .not)
      (other : ∀ query, operand.bare ≠ .existsIn query false) : Bracketed operand.not
  | group {operand : Predicate} (inner : Bracketed operand) : Bracketed operand.group
  | test (test : Test) : Bracketed (.test test)
  | inQuery (tested : Expr) (query : Query) (negated : Bool) :
      Bracketed (.inQuery tested query negated)
  | existsIn (query : Query) (negated : Bool) : Bracketed (.existsIn query negated)

/-- Only conditions that count as atoms are written as something else. -/
theorem bare_eq {predicate : Predicate} (other : predicate.printed.strength ≠ .atom) :
    predicate.bare = predicate := by
  unfold bare
  split
  · rw [printed_and] at other
    exact absurd rfl other
  · rw [printed_or] at other
    exact absurd rfl other
  · rfl

theorem strength_and {operands : List Predicate} (several : 2 ≤ operands.length) :
    (Predicate.and operands).printed.strength = .and := by
  rcases operands with _ | ⟨first, _ | ⟨second, rest⟩⟩
  · contradiction
  · simp at several
  · rw [printed_and]
    rfl

theorem strength_or {operands : List Predicate} (several : 2 ≤ operands.length) :
    (Predicate.or operands).printed.strength = .or := by
  rcases operands with _ | ⟨first, _ | ⟨second, rest⟩⟩
  · contradiction
  · simp at several
  · rw [printed_or]
    rfl

theorem bare_and {operands : List Predicate} (several : 2 ≤ operands.length) :
    (Predicate.and operands).bare = .and operands :=
  bare_eq (by rw [strength_and several]; decide)

theorem bare_or {operands : List Predicate} (several : 2 ≤ operands.length) :
    (Predicate.or operands).bare = .or operands :=
  bare_eq (by rw [strength_or several]; decide)

theorem saidIn_of_strength {weakest : Strength} {operand : Predicate}
    (strong : ¬ operand.printed.strength.rank < weakest.rank) :
    operand.saidIn weakest = operand.said := if_neg strong

/-- Only disjunctions are written in parentheses between AND. -/
theorem saidIn_and_of_ne {operand : Predicate} (other : operand.printed.strength ≠ .or) :
    operand.saidIn .and = operand.said := by
  apply saidIn_of_strength
  revert other
  cases operand.printed.strength <;> decide

/-- Parentheses do not matter for the normal form. -/
theorem normal_saidIn (operand : Predicate) (weakest : Strength) :
    (ofDisjuncts (operand.saidIn weakest)).normal = (ofDisjuncts operand.said).normal := by
  unfold saidIn enclosed
  split
  · exact normal_group _
  · rfl

theorem said_and_single (only : Predicate) : (Predicate.and [only]).said = only.saidIn .and := by
  rw [said_and, List.isEmpty_cons, if_neg Bool.false_ne_true, List.map_singleton, List.foldr_cons,
    List.foldr_nil, fuse_nil]

theorem said_or_single (only : Predicate) : (Predicate.or [only]).said = only.said := by
  rw [said_or, List.isEmpty_cons, if_neg Bool.false_ne_true, List.flatMap_singleton]

/-- What is joined by AND, if parentheses are written around disjunctions. -/
theorem saidIn_and {operand : Predicate} (apart : operand.Keeps .and)
    (shape : Shape operand.bare.printed.strength operand.said) :
    operand.saidIn .and = [conjunctsOf operand.said] := by
  unfold saidIn enclosed
  split
  · rename_i weak
    have strength : operand.printed.strength = .or := by
      revert weak
      cases operand.printed.strength <;> decide
    rw [bare_eq (by rw [strength]; decide), strength] at shape
    rw [conjunctsOf_several shape]
  · rename_i strong
    have single : ∃ conjuncts, operand.said = [conjuncts] := by
      have bound := mt apart strong
      revert bound shape
      cases operand.bare.printed.strength with
      | or => exact fun _ strong => absurd (by decide) strong
      | and => exact fun ⟨conjuncts, same, _⟩ _ => ⟨conjuncts, same⟩
      | not => exact fun ⟨only, same⟩ _ => ⟨[only], same⟩
      | atom => exact fun ⟨only, same⟩ _ => ⟨[only], same⟩
    obtain ⟨conjuncts, same⟩ := single
    rw [same]
    rfl

/-- What NOT applies to, if parentheses are written around conjunctions and disjunctions. -/
theorem saidIn_not {operand : Predicate} (apart : operand.Keeps .not)
    (shape : Shape operand.bare.printed.strength operand.said) :
    operand.saidIn .not = [[operandOf operand.said]] := by
  unfold saidIn enclosed
  split
  · rename_i weak
    rw [bare_eq (by rintro same; rw [same] at weak; exact absurd weak (by decide))] at shape
    revert weak shape
    cases operand.printed.strength with
    | or => exact fun shape _ => by rw [operandOf_several shape]
    | and =>
      rintro ⟨conjuncts, same, several⟩ _
      rw [same, operandOf_conjuncts several]
    | not => exact fun _ weak => absurd weak (by decide)
    | atom => exact fun _ weak => absurd weak (by decide)
  · rename_i strong
    have single : ∃ only, operand.said = [[only]] := by
      have bound := mt apart strong
      revert bound shape
      cases operand.bare.printed.strength with
      | or => exact fun _ strong => absurd (by decide) strong
      | and => exact fun _ strong => absurd (by decide) strong
      | not => exact fun single _ => single
      | atom => exact fun single _ => single
    obtain ⟨only, same⟩ := single
    rw [same]
    rfl

theorem foldr_fuse_single {operands : List Predicate} {f : Predicate → List Predicate}
    (nonempty : operands ≠ []) : (operands.map fun operand => [f operand]).foldr fuse [] =
      [operands.flatMap f] := by
  induction operands with
  | nil => exact absurd rfl nonempty
  | cons first rest ih =>
    by_cases last : rest = []
    · subst last
      simp [fuse]
    · rw [List.map_cons, List.foldr_cons, ih last, List.flatMap_cons]
      rfl

/-- Operands that AND joins as the tree says. -/
theorem said_and_several {operands : List Predicate} (several : 2 ≤ operands.length)
    (apart : ∀ operand ∈ operands, operand.Keeps .and)
    (shape : ∀ operand ∈ operands, Shape operand.bare.printed.strength operand.said) :
    (Predicate.and operands).said = [operands.flatMap fun operand => conjunctsOf operand.said] := by
  have nonempty : operands ≠ [] := by
    rintro rfl
    contradiction
  have each : operands.map (saidIn .and) = operands.map fun operand => [conjunctsOf operand.said] :=
    List.map_congr_left fun operand found => saidIn_and (apart operand found) (shape operand found)
  rw [said_and, if_neg (mt List.isEmpty_iff.mp nonempty), each, foldr_fuse_single nonempty]

namespace Bracketed

variable {predicate : Predicate}

/-- The text says as many disjuncts and conjuncts as go with what is written. -/
theorem shape (bracketed : predicate.Bracketed) :
    Shape predicate.bare.printed.strength predicate.said := by
  induction bracketed with
  | @and operands each apart ih =>
    rcases operands with _ | ⟨first, _ | ⟨second, rest⟩⟩
    · exact ⟨always, rfl⟩
    · rw [said_and_single, bare]
      split
      · rename_i weak
        rw [printed_and, saidIn, enclosed, weak]
        exact ⟨_, rfl⟩
      · rename_i strong
        rw [saidIn_and_of_ne strong]
        exact ih first List.mem_cons_self
    · have several : 2 ≤ (first :: second :: rest).length := by simp
      rw [said_and_several several (apart several) ih, bare_and several, strength_and several]
      exact ⟨_, rfl, two_le_length_flatMap several fun operand found =>
        (ih operand found).conjuncts_pos⟩
  | @or operands each ih =>
    rcases operands with _ | ⟨first, _ | ⟨second, rest⟩⟩
    · exact ⟨never, rfl⟩
    · rw [said_or_single, bare]
      exact ih first List.mem_cons_self
    · have several : 2 ≤ (first :: second :: rest).length := by simp
      rw [said_or, bare_or several, strength_or several]
      exact two_le_length_flatMap several fun operand found => (ih operand found).length_pos
  | not inner apart other ih =>
    rw [said_not, saidIn_not apart ih]
    exact ⟨_, rfl⟩
  | group inner => exact ⟨_, rfl⟩
  | test test => exact ⟨_, said_test test⟩
  | inQuery tested query negated => exact ⟨_, said_inQuery tested query negated⟩
  | existsIn query negated => exact ⟨_, said_existsIn query negated⟩

/-- What is written as anything but EXISTS is not read as EXISTS. -/
theorem said_ne (bracketed : predicate.Bracketed)
    (other : ∀ query, predicate.bare ≠ .existsIn query false) (query : Query) :
    predicate.said ≠ [[.existsIn query false]] := by
  have whole := bracketed.shape
  induction bracketed with
  | @and operands each apart ih =>
    rcases operands with _ | ⟨first, _ | ⟨second, rest⟩⟩
    · rintro ⟨⟩
    · rw [bare] at other
      rw [said_and_single]
      split at other
      · rename_i weak
        rw [saidIn, enclosed, weak]
        rintro ⟨⟩
      · rename_i strong
        rw [saidIn_and_of_ne strong]
        exact ih first List.mem_cons_self other (each first List.mem_cons_self).shape
    · have several : 2 ≤ (first :: second :: rest).length := by simp
      rw [bare_and several, strength_and several] at whole
      obtain ⟨conjuncts, same, several⟩ := whole
      rw [same]
      rintro ⟨⟩
      contradiction
  | @or operands each ih =>
    rcases operands with _ | ⟨first, _ | ⟨second, rest⟩⟩
    · rintro ⟨⟩
    · rw [bare] at other
      rw [said_or_single]
      exact ih first List.mem_cons_self other (each first List.mem_cons_self).shape
    · have several : 2 ≤ (first :: second :: rest).length := by simp
      rw [bare_or several, strength_or several] at whole
      intro same
      rw [same] at whole
      contradiction
  | @not operand inner apart _ _ =>
    rw [said_not, saidIn_not apart inner.shape]
    intro same
    injection same with same _
    injection same with same _
    exact denied_ne _ query same
  | group inner => rintro ⟨⟩
  | test test => rintro ⟨⟩
  | inQuery tested inner negated =>
    rw [said_inQuery]
    rintro ⟨⟩
  | existsIn inner negated =>
    rw [said_existsIn]
    rintro ⟨⟩
    exact other inner rfl

/-- NOT is not written in front of EXISTS. -/
theorem denied_operandOf (bracketed : predicate.Bracketed)
    (other : ∀ query, predicate.bare ≠ .existsIn query false) :
    (operandOf predicate.said).denied = (operandOf predicate.said).not := by
  have different := bracketed.said_ne other
  apply denied_of_ne
  intro query
  unfold operandOf
  split
  · rename_i only single
    rintro rfl
    exact different query single
  · exact Predicate.noConfusion

theorem normal_said (bracketed : predicate.Bracketed) :
    (ofDisjuncts predicate.said).normal = predicate.normal := by
  induction bracketed with
  | @and operands each apart ih =>
    rcases operands with _ | ⟨first, _ | ⟨second, rest⟩⟩
    · rfl
    · rw [said_and_single, normal_saidIn, ih first List.mem_cons_self, normal_and,
        List.map_singleton, Connective.combine_singleton first.normal_flat]
    · have several : 2 ≤ (first :: second :: rest).length := by simp
      rw [said_and_several several (apart several) fun operand found => (each operand found).shape,
        normal_and]
      change (allOf ((first :: second :: rest).flatMap fun operand =>
        conjunctsOf operand.said)).normal = _
      rw [normal_allOf, List.map_flatMap, List.map_eq_flatMap]
      apply Connective.combine_flatMap
      intro operand found
      rw [parts_conjunctsOf operand.full_said.2 (ih operand found), List.flatMap_singleton]
  | @or operands each ih =>
    rw [said_or, normal_or]
    rcases operands with _ | ⟨first, rest⟩
    · rfl
    · change (ofDisjuncts ((first :: rest).flatMap said)).normal = _
      rw [normal_ofDisjuncts, List.map_flatMap, List.map_eq_flatMap]
      apply Connective.combine_flatMap
      intro operand found
      rw [parts_disjuncts operand.full_said.1 (ih operand found), List.flatMap_singleton]
  | @not operand inner apart other ih =>
    rw [said_not, saidIn_not apart inner.shape]
    change (operandOf operand.said).denied.normal = _
    rw [inner.denied_operandOf other, normal_not, normal_not, normal_operandOf ih]
  | group inner ih => exact ih
  | test test => rfl
  | inQuery tested inner negated => exact normal_reread _
  | existsIn inner negated => exact normal_reread _

end Bracketed

/-- What is written for a condition says what its text does. -/
theorem said_bare (predicate : Predicate) : predicate.bare.said = predicate.said := by
  fun_induction bare predicate with
  | case1 only weak => rfl
  | case2 only strong ih => rw [ih, said_and_single, saidIn_and_of_ne strong]
  | case3 only ih => rw [ih, said_or_single]
  | case4 other => rfl

theorem weight_saidIn (operand : Predicate) (weakest : Strength) :
    weightOfAny (operand.saidIn weakest) = weightOfAny operand.said := by
  unfold saidIn enclosed
  split
  · rw [weightOfAny_single, weight_group, weight_ofDisjuncts operand.full_said]
  · rfl

/-- An operand of AND that is read as one conjunction has its parentheses. -/
theorem keeps_and {operand : Predicate} (bracketed : operand.Bracketed)
    (single : (operand.saidIn .and).length = 1) : operand.Keeps .and := by
  intro weak
  apply Decidable.byContradiction
  intro strong
  have strength : operand.bare.printed.strength = .or := by
    revert weak
    cases operand.bare.printed.strength <;> decide
  have several := bracketed.shape
  rw [strength] at several
  rw [saidIn_of_strength strong] at single
  have : 2 ≤ operand.said.length := several
  omega

/-- An operand of NOT that is read as one condition has its parentheses. -/
theorem keeps_not {operand only : Predicate} (bracketed : operand.Bracketed)
    (single : operand.saidIn .not = [[only]]) : operand.Keeps .not := by
  intro weak
  apply Decidable.byContradiction
  intro strong
  rw [saidIn_of_strength strong] at single
  have several := bracketed.shape
  rw [single] at several
  revert weak several
  cases operand.bare.printed.strength with
  | or => exact fun _ several => absurd several (by simp [Shape])
  | and => exact fun _ several => absurd several (by simp [Shape])
  | not => exact fun weak _ => absurd weak (by decide)
  | atom => exact fun weak _ => absurd weak (by decide)

/-- What is written as EXISTS has no parentheses behind NOT. -/
theorem saidIn_not_existsIn {operand : Predicate} {query : Query}
    (same : operand.bare = .existsIn query false) :
    operand.saidIn .not = [[.existsIn query.reread false]] := by
  have strong : ¬ operand.printed.strength.rank < Strength.not.rank := by
    intro weak
    have other : operand.printed.strength ≠ .atom := by
      intro atom
      rw [atom] at weak
      exact absurd weak (by decide)
    rw [← bare_eq other, same] at weak
    have impossible : ¬ 4 < 3 := by decide
    exact impossible weak
  rw [saidIn_of_strength strong, ← said_bare, same, said_existsIn]

/-- The text weighs no more than the tree, and less if an operator applies to something else. -/
def Weighed (predicate : Predicate) : Prop :=
  weightOfAny predicate.said ≤ predicate.weight ∧
    (weightOfAny predicate.said = predicate.weight → predicate.Bracketed)

theorem weighed_and {operands : List Predicate} (each : ∀ operand ∈ operands, operand.Weighed) :
    (Predicate.and operands).Weighed := by
  rw [Weighed, said_and, weight_and]
  split
  · rename_i empty
    rw [List.isEmpty_iff.mp empty]
    exact ⟨Nat.le_refl 2, fun _ => .and (by simp) (by simp)⟩
  · rename_i nonempty
    rw [List.isEmpty_iff] at nonempty
    obtain ⟨below, equal⟩ := weightOfAny_foldr_fuse nonempty
      (fun operand _ => operand.full_said.saidIn .and)
      (fun operand found => operand.weight_saidIn .and ▸ (each operand found).1)
    refine ⟨below, fun same => ?_⟩
    have bracketed : ∀ operand ∈ operands, operand.Bracketed := fun operand found =>
      (each operand found).2 (operand.weight_saidIn .and ▸ (equal same operand found).1)
    exact .and bracketed fun several operand found =>
      keeps_and (bracketed operand found) ((equal same operand found).2 several)

theorem weighed_or {operands : List Predicate} (each : ∀ operand ∈ operands, operand.Weighed) :
    (Predicate.or operands).Weighed := by
  rw [Weighed, said_or, weight_or]
  split
  · rename_i empty
    rw [List.isEmpty_iff.mp empty]
    exact ⟨Nat.le_refl 2, fun _ => .or (by simp)⟩
  · rw [weightOfAny_flatMap]
    obtain ⟨below, equal⟩ := sum_eq_of_le fun operand found => (each operand found).1
    exact ⟨below, fun same => .or fun operand found =>
      (each operand found).2 (equal same operand found)⟩

theorem weighed_not {operand : Predicate} (inner : operand.Weighed) : operand.not.Weighed := by
  have full := operand.full_said.saidIn .not
  have square : weightOfAny (operand.saidIn .not) ^ 2 ≤ operand.weight ^ 2 := by
    rw [weight_saidIn]
    exact Nat.pow_le_pow_left inner.1 2
  rw [Weighed, said_not, weight_not]
  rcases weightOfAny_denied full with less | ⟨only, single, negated⟩
  · have strict := Nat.lt_of_lt_of_le less square
    exact ⟨Nat.le_of_lt strict, fun same => absurd same (Nat.ne_of_lt strict)⟩
  · -- NOT applies to all that is read behind it, which may still weigh less than the operand
    have whole : weightOfAny operand.said = only.weight := by
      rw [← weight_saidIn operand .not, single, weightOfAny_single]
    rw [Weighed, whole] at inner
    have read : ([[only]].modifyHead (·.modifyHead denied)) = [[only.not]] := by
      rw [← negated]
      rfl
    rw [single, read, weightOfAny_single, weight_not]
    refine ⟨Nat.pow_le_pow_left inner.1 2, fun same => ?_⟩
    have bracketed := inner.2 ((Nat.pow_left_inj (by decide)).mp same)
    refine .not bracketed (keeps_not bracketed single) fun query written => ?_
    rw [saidIn_not_existsIn written] at single
    obtain rfl : Predicate.existsIn (Query.reread query) false = only := by simpa using single
    cases negated

theorem weighed (predicate : Predicate) : predicate.Weighed := by
  induction predicate using Predicate.induction with
  | and operands ih => exact weighed_and ih
  | or operands ih => exact weighed_or ih
  | not operand ih => exact weighed_not ih
  | group operand ih =>
    rw [Weighed, said_group, weightOfAny_single, weight_group, weight_ofDisjuncts operand.full_said]
    exact ⟨ih.1, fun same => .group (ih.2 same)⟩
  | test test => exact ⟨Nat.le_refl 2, fun _ => .test test⟩
  | inQuery tested query negated =>
    rw [Weighed, said_inQuery]
    exact ⟨Nat.le_refl 2, fun _ => .inQuery tested query negated⟩
  | existsIn query negated =>
    rw [Weighed, said_existsIn]
    exact ⟨Nat.le_refl 2, fun _ => .existsIn query negated⟩

theorem bracketed_iff (predicate : Predicate) :
    predicate.Bracketed ↔ weightOfAny predicate.said = predicate.weight := by
  refine ⟨fun bracketed => ?_, predicate.weighed.2⟩
  rw [← weight_ofDisjuncts predicate.full_said, ← weight_normal, bracketed.normal_said,
    weight_normal]

instance (predicate : Predicate) : Decidable predicate.Bracketed :=
  decidable_of_iff _ predicate.bracketed_iff.symm

example : Bracketed (.and [.or [always, never], .not (.or [never])]) := by decide

example : ¬ Bracketed (.and [.or [.or [always, never]], always]) := by decide

/-- The text says what has the normal form of the tree, up to places, just if operators apply to the
same operands in both. -/
theorem normal_said_iff (predicate : Predicate) :
    (ofDisjuncts predicate.said).normal.unplaced = predicate.normal.unplaced ↔
      predicate.Bracketed := by
  refine ⟨fun same => ?_, fun bracketed => by rw [bracketed.normal_said]⟩
  have weights := congrArg weight same
  rw [weight_unplaced, weight_unplaced, weight_normal, weight_normal,
    weight_ofDisjuncts predicate.full_said] at weights
  exact predicate.bracketed_iff.mpr weights

/-- The text of a condition is parsed behind WHERE if its leaves are such as the parser produces.
The result has the normal form of the condition just if operators apply to the same operands in the
text as in the tree. -/
theorem parse_where_normal (entity name : String) {predicate : Predicate} {depth : Nat}
    (read : ∀ leaf ∈ predicate.leaves, leaf.IsRead depth) :
    ∃ query condition, Query.parse
        ((Query.ofEntity entity name none).text ++ " where " ++ predicate.text) depth = .ok query ∧
      query.filter = some condition ∧
      query.unplaced = (Query.ofEntity entity name condition).unplaced ∧
      (condition.normal.unplaced = predicate.normal.unplaced ↔ predicate.Bracketed) := by
  have within := (predicate.nesting_le_iff depth).mpr fun leaf found => (read leaf found).nesting_le
  obtain ⟨query, condition, parsed, filter, rest, same⟩ :=
    Query.parse_where entity name (fun leaf found => (read leaf found).printable) within
  refine ⟨query, condition, parsed, filter, rest, ?_⟩
  rw [← predicate.normal_said_iff, ← normal_unplaced, same, normal_unplaced]

/-- Whether the condition joins two comparisons with AND. -/
def isTestPair : Predicate → Bool
  | .and [.test _, .test _] => true
  | _ => false

/-- A disjunction of one operand counts as an atom, so that NOT applies to less than it. -/
theorem parse_where_normal_negated : ∃ (query : Query) (first second : Test) (negated : Predicate),
    Query.parse "select e from Customer e where e.a = :a and e.b = :b" 0 = .ok query ∧
      query.filter = some (.and [.test first, .test second]) ∧
      negated = .not (.or [.and [.test first, .test second]]) ∧
      (∀ leaf ∈ negated.leaves, leaf.IsRead 0) ∧
      ∃ result condition, Query.parse
          ((Query.ofEntity "Customer" "e" none).text ++ " where " ++ negated.text) 0 = .ok result ∧
        result.filter = some condition ∧
        condition.normal.unplaced ≠ negated.normal.unplaced := by
  have two : (Query.parse "select e from Customer e where e.a = :a and e.b = :b" 0).toOption.any
      fun query => decide (∀ x ∈ query.decimals, x.IsFinite) && query.filter.any isTestPair := by
    decide +kernel
  -- from here on only what was found out about the text matters
  generalize "select e from Customer e where e.a = :a and e.b = :b" = source at two
  cases parsed : Query.parse source 0 with
  | error error =>
    rw [parsed] at two
    contradiction
  | ok query =>
    rw [parsed] at two
    obtain ⟨finite, shape⟩ := Bool.and_eq_true_iff.mp two
    obtain ⟨condition, filter, shape⟩ := (Option.any_eq_true _ _).mp shape
    unfold isTestPair at shape
    split at shape
    · rename_i first second
      have read : ∀ leaf ∈ (Predicate.not (.or [.and [.test first, .test second]])).leaves,
          leaf.IsRead 0 := fun leaf found =>
        ⟨source, query, parsed, of_decide_eq_true finite, _, Select.mem_of_filter filter, leaf,
          found, rfl⟩
      obtain ⟨result, condition, reread, found, _, same⟩ :=
        parse_where_normal "Customer" "e" read
      have loose : ¬ (Predicate.not (.or [.and [.test first, .test second]])).Bracketed :=
        of_decide_eq_false rfl
      exact ⟨query, first, second, _, rfl, filter, rfl, read, result, condition, reread, found,
        mt same.mp loose⟩
    · contradiction

end Predicate

end QueryGuard
