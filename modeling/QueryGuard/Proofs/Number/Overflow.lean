import QueryGuard.Number.Binary64
/-!
Which fractions are rounded to an infinity: those from half a unit behind the largest finite number on.
-/

set_option autoImplicit false

namespace QueryGuard.Binary64

/-- The middle between the largest finite number and the next power of two. -/
def overflow : Nat := (2 ^ 54 - 1) * 2 ^ 970

/-! ### Rounding to an integer -/

/-- Rounding looks at the rest of the division. -/
theorem roundEven_cases (num den : Nat) :
    (2 * (num % den) < den ∧ roundEven num den = num / den) ∨
    (2 * (num % den) = den ∧ roundEven num den = num / den + num / den % 2) ∨
    (den < 2 * (num % den) ∧ roundEven num den = num / den + 1) := by
  simp only [roundEven]
  split
  · exact .inl ⟨‹_›, rfl⟩
  · split
    · exact .inr (.inl ⟨‹_›, rfl⟩)
    · exact .inr (.inr ⟨by omega, rfl⟩)

theorem div_le_roundEven (num den : Nat) : num / den ≤ roundEven num den := by
  have cases := roundEven_cases num den
  omega

theorem roundEven_le (num den : Nat) : roundEven num den ≤ num / den + 1 := by
  have cases := roundEven_cases num den
  omega

/-- Rounding goes past an odd integer from the middle between it and the next one on. -/
theorem lt_roundEven_iff {num den n : Nat} (positive : 0 < den) (odd : n % 2 = 1) :
    n < roundEven num den ↔ (2 * n + 1) * den ≤ 2 * num := by
  have parts := Nat.div_add_mod num den
  have rest := Nat.mod_lt num positive
  have middle : (2 * n + 1) * den = 2 * (den * n) + den := by
    rw [Nat.add_mul, Nat.one_mul, Nat.mul_assoc, Nat.mul_comm n]
  rw [middle]
  rcases Nat.lt_trichotomy (num / den) n with less | same | more
  · have rounded := roundEven_le num den
    have bound := Nat.mul_le_mul_left den (Nat.succ_le_of_lt less)
    rw [Nat.mul_succ] at bound
    refine iff_of_false ?_ ?_ <;> omega
  · have cases := roundEven_cases num den
    rw [same] at parts cases
    omega
  · have rounded := div_le_roundEven num den
    have bound := Nat.mul_le_mul_left den (Nat.succ_le_of_lt more)
    rw [Nat.mul_succ] at bound
    refine iff_of_true ?_ ?_ <;> omega

/-! ### The scale of a fraction -/

/-- At the scale of a fraction there are at most 53 binary digits. -/
theorem lt_scaleOf (num : Nat) {den : Nat} (positive : 0 < den) :
    num * 2 ^ 1074 < 2 ^ 53 * (den * 2 ^ scaleOf num den) := by
  have digits : num * 2 ^ 1074 / den < 2 ^ (53 + scaleOf num den) := by
    refine Nat.lt_of_lt_of_le Nat.lt_log2_self (Nat.pow_le_pow_right (by decide) ?_)
    rw [scaleOf]
    omega
  rwa [Nat.div_lt_iff_lt_mul positive, Nat.pow_add, Nat.mul_assoc, Nat.mul_comm _ den] at digits

/-- At a scale above the smallest one there are no fewer. -/
theorem scaleOf_le {num den : Nat} (positive : 0 < den) (above : 0 < scaleOf num den) :
    2 ^ 52 * (den * 2 ^ scaleOf num den) ≤ num * 2 ^ 1074 := by
  have size : (num * 2 ^ 1074 / den).log2 = 52 + scaleOf num den := by
    rw [scaleOf] at above ⊢
    omega
  have nonzero : num * 2 ^ 1074 / den ≠ 0 := by
    intro zero
    rw [zero, Nat.log2_zero] at size
    omega
  have digits := Nat.log2_self_le nonzero
  rwa [size, Nat.le_div_iff_mul_le positive, Nat.pow_add, Nat.mul_assoc, Nat.mul_comm _ den] at digits

/-- The significand of a fraction before it is known to be in range. -/
def significandOf (num den : Nat) : Nat :=
  roundEven (num * 2 ^ 1074) (den * 2 ^ scaleOf num den)

theorem significandOf_le (num : Nat) {den : Nat} (positive : 0 < den) :
    significandOf num den ≤ 2 ^ 53 := by
  have unit : 0 < den * 2 ^ scaleOf num den := Nat.mul_pos positive (Nat.two_pow_pos _)
  have below := (Nat.div_lt_iff_lt_mul unit).mpr (lt_scaleOf num positive)
  have rounded := roundEven_le (num * 2 ^ 1074) (den * 2 ^ scaleOf num den)
  exact Nat.le_trans rounded below

theorem le_significandOf {num den : Nat} (positive : 0 < den) (above : 0 < scaleOf num den) :
    2 ^ 52 ≤ significandOf num den := by
  have unit : 0 < den * 2 ^ scaleOf num den := Nat.mul_pos positive (Nat.two_pow_pos _)
  exact Nat.le_trans ((Nat.le_div_iff_mul_le unit).mpr (scaleOf_le positive above))
    (div_le_roundEven _ _)

/-! ### Infinities -/

/-- The nearest number has the sign of its fraction, whether it is finite or not. -/
theorem isNegative_ofRatio (negative : Bool) (num den : Nat) :
    (ofRatio negative num den).isNegative = negative := by
  have parts (significand scale : Nat) : (ofParts negative significand scale).isNegative = negative := by
    rw [ofParts]
    split <;> rfl
  rw [ofRatio]
  split <;> exact parts _ _

/-- A fraction is infinite if its scale is too large, or if it is the largest one and the significand is
rounded up to the next scale. -/
theorem ofRatio_cases (negative : Bool) (num : Nat) {den : Nat} (positive : 0 < den) :
    (ofRatio negative num den = .infinite negative ∧
      (2045 < scaleOf num den ∨ scaleOf num den = 2045 ∧ 2 ^ 53 - 1 < significandOf num den)) ∨
    ((∃ value, ofRatio negative num den = .finite value) ∧
      ¬ (2045 < scaleOf num den ∨ scaleOf num den = 2045 ∧ 2 ^ 53 - 1 < significandOf num den)) := by
  have most := significandOf_le num positive
  have least : scaleOf num den = 0 ∨ 2 ^ 52 ≤ significandOf num den :=
    (Nat.eq_zero_or_pos _).imp_right (le_significandOf positive)
  have rounded : ofRatio negative num den =
      if significandOf num den = 2 ^ 53 then ofParts negative (2 ^ 52) (scaleOf num den + 1)
      else ofParts negative (significandOf num den) (scaleOf num den) := rfl
  rw [rounded]
  generalize significandOf num den = significand at most least ⊢
  generalize scaleOf num den = scale at least ⊢
  by_cases full : significand = 2 ^ 53
  · rw [if_pos full, ofParts]
    by_cases range : scale + 1 ≤ 2045
    · rw [dif_pos ⟨by decide, range, .inr (Nat.le_refl _)⟩]
      exact .inr ⟨⟨_, rfl⟩, by omega⟩
    · rw [dif_neg fun parts => range parts.2.1]
      exact .inl ⟨rfl, by omega⟩
  · rw [if_neg full, ofParts]
    have small : significand < 2 ^ 53 := Nat.lt_of_le_of_ne most full
    by_cases range : scale ≤ 2045
    · rw [dif_pos ⟨small, range, least⟩]
      exact .inr ⟨⟨_, rfl⟩, by omega⟩
    · rw [dif_neg fun parts => range parts.2.1]
      exact .inl ⟨rfl, by omega⟩

/-- The parts of a scale one by one. -/
theorem unit_eq (den first second third : Nat) : den * 2 ^ (first + (second + third)) =
    2 ^ first * (2 ^ second * den) * 2 ^ third := by
  rw [Nat.pow_add, Nat.pow_add]
  ac_rfl

theorem unit_le (den : Nat) {first second : Nat} (le : first ≤ second) :
    den * 2 ^ first ≤ den * 2 ^ second :=
  Nat.mul_le_mul_left den (Nat.pow_le_pow_right (by decide) le)

theorem overflow_mul (den : Nat) : overflow * den = (2 ^ 54 - 1) * (2 ^ 970 * den) := by
  rw [overflow, Nat.mul_assoc]

/-- Below the largest scale a fraction is in range. -/
theorem lt_of_scaleOf_lt {num den : Nat} (positive : 0 < den) (small : scaleOf num den < 2045) :
    num < 2 ^ 53 * (2 ^ 970 * den) := by
  have above := lt_scaleOf num positive
  have grows := unit_le den (show scaleOf num den ≤ 0 + (970 + 1074) by omega)
  have bound := Nat.lt_of_lt_of_le above (Nat.mul_le_mul_left (2 ^ 53) grows)
  rw [unit_eq, Nat.pow_zero, Nat.one_mul, ← Nat.mul_assoc] at bound
  exact Nat.lt_of_mul_lt_mul_right bound

/-- Above the largest scale it is out of range. -/
theorem le_of_lt_scaleOf {num den : Nat} (positive : 0 < den) (large : 2045 < scaleOf num den) :
    2 ^ 54 * (2 ^ 970 * den) ≤ num := by
  have below := scaleOf_le positive (Nat.zero_lt_of_lt large)
  have grows := unit_le den (show 2 + (970 + 1074) ≤ scaleOf num den by omega)
  have bound := Nat.le_trans (Nat.mul_le_mul_left (2 ^ 52) grows) below
  rw [unit_eq, ← Nat.mul_assoc, ← Nat.mul_assoc] at bound
  exact Nat.le_of_mul_le_mul_right bound (Nat.two_pow_pos 1074)

/-- At the largest scale the significand decides. -/
theorem lt_significandOf_iff {num den : Nat} (positive : 0 < den) (largest : scaleOf num den = 2045) :
    2 ^ 53 - 1 < significandOf num den ↔ overflow * den ≤ num := by
  have unit : 0 < den * 2 ^ scaleOf num den := Nat.mul_pos positive (Nat.two_pow_pos _)
  have middle := @lt_roundEven_iff (num * 2 ^ 1074) _ (2 ^ 53 - 1) unit (by decide)
  have parts : den * 2 ^ scaleOf num den = 2 ^ 1 * (2 ^ 970 * den) * 2 ^ 1074 := by
    rw [← unit_eq, largest]
  have smallest : 0 < 2 ^ 1074 := Nat.two_pow_pos 1074
  rw [← significandOf, parts, ← Nat.mul_assoc, ← Nat.mul_assoc 2 num] at middle
  rw [overflow_mul]
  generalize 2 ^ 970 * den = product at middle ⊢
  generalize 2 ^ 1074 = factor at middle smallest
  rw [Nat.mul_le_mul_right_iff smallest] at middle
  omega

/-- Where the scale and the significand of a fraction are out of range, its value is. -/
theorem out_of_range_iff (num : Nat) {den : Nat} (positive : 0 < den) :
    (2045 < scaleOf num den ∨ scaleOf num den = 2045 ∧ 2 ^ 53 - 1 < significandOf num den) ↔
      overflow * den ≤ num := by
  have limit := overflow_mul den
  rcases Nat.lt_trichotomy (scaleOf num den) 2045 with less | same | more
  · have small := lt_of_scaleOf_lt positive less
    refine iff_of_false ?_ ?_ <;> omega
  · rw [← lt_significandOf_iff positive same]
    omega
  · have large := le_of_lt_scaleOf positive more
    refine iff_of_true ?_ ?_ <;> omega

/-- The number nearest to a fraction is an infinity exactly from the middle on that stands behind the
largest finite number; any other fraction has a finite one. -/
theorem ofRatio_finite_iff (negative : Bool) (num : Nat) {den : Nat} (positive : 0 < den) :
    (∃ value, ofRatio negative num den = .finite value) ↔ num < overflow * den := by
  rw [← Nat.not_le, ← out_of_range_iff num positive]
  rcases ofRatio_cases negative num positive with ⟨infinite, out⟩ | ⟨finite, inside⟩
  · rw [infinite]
    exact iff_of_false nofun (not_not_intro out)
  · exact iff_of_true finite inside

theorem ofRatio_infinite (negative : Bool) {num den : Nat} (positive : 0 < den)
    (large : overflow * den ≤ num) : ofRatio negative num den = .infinite negative := by
  rcases ofRatio_cases negative num positive with ⟨infinite, _⟩ | ⟨_, inside⟩
  · exact infinite
  · exact absurd ((out_of_range_iff num positive).mpr large) inside

end QueryGuard.Binary64
