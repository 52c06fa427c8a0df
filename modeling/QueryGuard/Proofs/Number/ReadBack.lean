import QueryGuard.Number.Notation
import QueryGuard.Number.Shortest
/-!
The written form of a finite number reads back as the number: rounding looks at the value of a fraction only,
and numbers that need no rounding stay as they are. The text of a number with a fractional part is digits, a
point and digits.
-/

set_option autoImplicit false

namespace QueryGuard

/-! ### Rounding -/

namespace Binary64

theorem div_eq_of_cross {num den num' den' : Nat} (positive : 0 < den) (positive' : 0 < den')
    (same : num * den' = num' * den) : num / den = num' / den' := by
  rw [← Nat.mul_div_mul_right num den positive', same, Nat.mul_comm den den',
    Nat.mul_div_mul_right num' den' positive]

theorem mod_cross {num den num' den' : Nat} (same : num * den' = num' * den) :
    num % den * den' = num' % den' * den := by
  rw [← Nat.mul_mod_mul_right, same, Nat.mul_comm den den', Nat.mul_mod_mul_right]

theorem roundEven_of_cross {num den num' den' : Nat} (positive : 0 < den) (positive' : 0 < den')
    (same : num * den' = num' * den) : roundEven num den = roundEven num' den' := by
  have rests := mod_cross same
  have twice : 2 * (num % den) * den' = 2 * (num' % den') * den := by
    rw [Nat.mul_assoc, Nat.mul_assoc, rests]
  have less : 2 * (num % den) < den ↔ 2 * (num' % den') < den' := by
    rw [← Nat.mul_lt_mul_right positive', twice, Nat.mul_comm den den',
      Nat.mul_lt_mul_right positive]
  have equal : 2 * (num % den) = den ↔ 2 * (num' % den') = den' := by
    rw [← Nat.mul_left_inj (Nat.ne_of_gt positive'), twice, Nat.mul_comm den den',
      Nat.mul_left_inj (Nat.ne_of_gt positive)]
  simp only [roundEven, div_eq_of_cross positive positive' same, less, equal]

theorem ofRatio_of_cross (negative : Bool) {num den num' den' : Nat} (positive : 0 < den)
    (positive' : 0 < den') (same : num * den' = num' * den) :
    ofRatio negative num den = ofRatio negative num' den' := by
  have scaled : ∀ factor : Nat, num * factor * den' = num' * factor * den := by
    intro factor
    rw [Nat.mul_right_comm, same, Nat.mul_right_comm]
  have scales : scaleOf num den = scaleOf num' den' := by
    simp only [scaleOf, div_eq_of_cross positive positive' (scaled _)]
  have rounded : ∀ factor scale : Nat,
      roundEven (num * factor) (den * 2 ^ scale) = roundEven (num' * factor) (den' * 2 ^ scale) := by
    intro factor scale
    apply roundEven_of_cross
    · exact Nat.mul_pos positive (Nat.two_pow_pos scale)
    · exact Nat.mul_pos positive' (Nat.two_pow_pos scale)
    · rw [← Nat.mul_assoc, ← Nat.mul_assoc, scaled]
  simp only [ofRatio, scales, rounded]

theorem ofRatio_zero (negative : Bool) {den den' : Nat} (positive : 0 < den)
    (positive' : 0 < den') : ofRatio negative 0 den = ofRatio negative 0 den' :=
  ofRatio_of_cross negative positive positive' (by rw [Nat.zero_mul, Nat.zero_mul])

theorem roundEven_mul (n : Nat) {den : Nat} (positive : 0 < den) : roundEven (n * den) den = n := by
  simp [roundEven, Nat.mul_div_cancel n positive, positive]

/-- A sign in front of a fraction is the sign of the rounded number. -/
theorem ofRatio_true (num den : Nat) : ofRatio true num den = (ofRatio false num den).neg := by
  have parts : ∀ significand scale,
      ofParts true significand scale = (ofParts false significand scale).neg := by
    intro significand scale
    simp only [ofParts]
    split <;> rfl
  simp only [ofRatio, parts]
  split <;> rfl

namespace Finite

theorem log2_magnitude (x : Finite) : x.magnitude.log2 - 52 = x.scale := by
  rcases Nat.eq_zero_or_pos x.scale with zero | positive
  · have small : x.magnitude < 2 ^ 53 := by
      simpa only [magnitude, zero, Nat.pow_zero, Nat.mul_one] using x.significand_lt
    rcases Nat.eq_zero_or_pos x.magnitude with none | some
    · rw [none, zero]
      decide
    · have := (Nat.log2_lt (Nat.ne_of_gt some)).mpr small
      omega
  · have large : 2 ^ 52 ≤ x.significand := x.normalized.resolve_left (Nat.ne_of_gt positive)
    have digits : x.magnitude.log2 = 52 + x.scale := by
      have nonzero : x.significand ≠ 0 := by omega
      rw [magnitude, Nat.log2_eq_iff (Nat.mul_ne_zero nonzero (Nat.ne_of_gt (Nat.two_pow_pos _))),
        Nat.pow_add, Nat.add_right_comm, Nat.pow_add]
      exact ⟨Nat.mul_le_mul_right _ large,
        Nat.mul_lt_mul_of_pos_right x.significand_lt (Nat.two_pow_pos _)⟩
    omega

/-- The fraction of a number's own value rounds to the number. -/
theorem ofRatio_magnitude (x : Finite) : ofRatio x.negative x.magnitude (2 ^ 1074) = .finite x := by
  have positive : 0 < 2 ^ 1074 := Nat.two_pow_pos 1074
  generalize unit : 2 ^ 1074 = one at positive
  have scale : scaleOf x.magnitude one = x.scale := by
    rw [scaleOf, unit, Nat.mul_div_cancel _ positive, log2_magnitude]
  have rounded : roundEven (x.magnitude * one) (one * 2 ^ x.scale) = x.significand := by
    rw [magnitude, Nat.mul_assoc, Nat.mul_comm (2 ^ x.scale)]
    exact roundEven_mul _ (Nat.mul_pos positive (Nat.two_pow_pos _))
  have bound : x.significand ≠ 2 ^ 53 := Nat.ne_of_lt x.significand_lt
  simp only [ofRatio, scale, unit, rounded, bound, ↓reduceIte, ofParts, x.significand_lt, x.scale_le,
    x.normalized, and_self, ↓reduceDIte]

end Finite

end Binary64

/-! ### Reading back -/

namespace Decimal

theorem ten_pow_pos (power : Nat) : 0 < 10 ^ power := Nat.pow_pos (by decide)

/-- A numerator of the value. -/
def numerator (x : Decimal) : Nat :=
  match x.exponent with
  | .ofNat power => x.coefficient * 10 ^ power
  | .negSucc _ => x.coefficient

/-- The denominator that goes with the numerator. -/
def denominator (x : Decimal) : Nat :=
  match x.exponent with
  | .ofNat _ => 1
  | .negSucc power => 10 ^ (power + 1)

theorem denominator_pos (x : Decimal) : 0 < x.denominator := by
  unfold denominator
  split
  · exact Nat.one_pos
  · exact ten_pow_pos _

theorem nearest_eq (negative : Bool) (x : Decimal) :
    x.nearest negative = .ofRatio negative x.numerator x.denominator := by
  rcases x with ⟨coefficient, power | power⟩ <;> simp only [nearest, numerator, denominator]

/-- Decimals of equal values have the same nearest number. -/
theorem nearest_of_cross (negative : Bool) {x y : Decimal}
    (same : x.numerator * y.denominator = y.numerator * x.denominator) :
    x.nearest negative = y.nearest negative := by
  rw [nearest_eq, nearest_eq]
  exact Binary64.ofRatio_of_cross negative x.denominator_pos y.denominator_pos same

theorem nearest_true (x : Decimal) : x.nearest true = (x.nearest false).neg := by
  rw [nearest_eq, nearest_eq, Binary64.ofRatio_true]

/-- Digits after the point count as a power of ten in the denominator. -/
theorem nearest_neg (negative : Bool) (coefficient places : Nat) :
    nearest negative ⟨coefficient, -(places : Int)⟩ = .ofRatio negative coefficient (10 ^ places) := by
  rw [nearest_eq]
  cases places with
  | zero =>
    change Binary64.ofRatio negative (coefficient * 10 ^ 0) 1 = _
    rw [Nat.pow_zero, Nat.mul_one]
  | succ places => rw [Int.natCast_succ, ← Int.negSucc_eq]; simp only [numerator, denominator]

/-- A zero at the end of the coefficient may be moved into the exponent. -/
theorem nearest_shift (negative : Bool) (coefficient : Nat) (exponent : Int) :
    nearest negative ⟨coefficient, exponent + 1⟩ = nearest negative ⟨coefficient * 10, exponent⟩ := by
  apply nearest_of_cross
  rcases exponent with power | power
  · change coefficient * 10 ^ (power + 1) * 1 = coefficient * 10 * 10 ^ power * 1
    rw [Nat.pow_succ, Nat.mul_assoc coefficient 10, Nat.mul_comm 10]
  · rcases power with _ | power
    · change coefficient * 1 * 10 ^ (0 + 1) = coefficient * 10 * 1
      omega
    · change coefficient * 10 ^ (power + 1 + 1) = coefficient * 10 * 10 ^ (power + 1)
      rw [Nat.pow_succ _ (power + 1), Nat.mul_assoc, Nat.mul_comm 10]

theorem nearest_trimmedBy (negative : Bool) (count : Nat) (x : Decimal) :
    (x.trimmedBy count).nearest negative = x.nearest negative := by
  induction count generalizing x with
  | zero => rfl
  | succ count ih =>
    rw [trimmedBy]
    split
    · rename_i zero
      rw [ih, nearest_shift, Nat.div_mul_cancel (Nat.dvd_of_mod_eq_zero zero.2)]
    · rfl

theorem nearest_trimmed (negative : Bool) (x : Decimal) :
    x.trimmed.nearest negative = x.nearest negative := nearest_trimmedBy negative _ x

end Decimal

namespace Binary64.Finite

theorem nearest_exactly (x : Finite) : x.exactly.nearest x.negative = .finite x := by
  have places : (-1074 : Int) = -((1074 : Nat) : Int) := rfl
  have tens : ∀ power, x.magnitude * 5 ^ power * 2 ^ power = x.magnitude * 10 ^ power :=
    fun power => by rw [Nat.mul_assoc, ← Nat.mul_pow]
  rw [exactly, places, Decimal.nearest_neg, ← ofRatio_magnitude x]
  exact ofRatio_of_cross x.negative (Decimal.ten_pow_pos 1074) (Nat.two_pow_pos 1074) (tens 1074)

theorem nearest_of_withDigits? {x : Finite} {tie : Tie} {count : Nat} {found : Decimal}
    (chosen : x.withDigits? tie count = some found) : found.nearest x.negative = .finite x := by
  have back : ∀ neighbours : Decimal × Decimal,
      (if x.readsBack neighbours.1 then some neighbours.1
        else if x.readsBack neighbours.2 then some neighbours.2 else none) = some found →
      x.readsBack found := by
    intro neighbours picked
    split at picked
    · rename_i first
      exact Option.some.inj picked ▸ first
    · split at picked
      · rename_i second
        exact Option.some.inj picked ▸ second
      · contradiction
  simpa only [readsBack, beq_iff_eq] using back _ chosen

/-- The shortest decimal of a number has it as its nearest one. -/
theorem nearest_shortest (x : Finite) (tie : Tie) :
    (x.shortest tie).nearest x.negative = .finite x := by
  rw [shortest]
  split
  · rename_i zero
    have value : x.magnitude = 0 := by rw [magnitude, zero, Nat.zero_mul]
    rw [← ofRatio_magnitude x, value]
    exact (Decimal.nearest_neg x.negative 0 0).trans
      (ofRatio_zero x.negative (Decimal.ten_pow_pos 0) (Nat.two_pow_pos 1074))
  · split
    · rename_i found search
      obtain ⟨count, _, chosen⟩ := List.exists_of_findSome?_eq_some search
      rw [Decimal.nearest_trimmed]
      exact nearest_of_withDigits? chosen
    · exact nearest_exactly x

end Binary64.Finite

/-! ### Digits with a point -/

/-- Two runs of digits that a point may stand between, and that read as a decimal of the given
value. -/
structure Decimal.Writes (x : Decimal) (whole fraction : List Char) : Prop where
  whole_ne_nil : whole ≠ []
  fraction_ne_nil : fraction ≠ []
  whole_digits : ∀ c ∈ whole, c.isDigit
  fraction_digits : ∀ c ∈ fraction, c.isDigit
  value : ∀ negative, (ofDigits whole fraction).nearest negative = x.nearest negative

namespace Decimal

theorem isDigit_of_mem_digits {x : Decimal} {c : Char} (found : c ∈ x.digits) : c.isDigit :=
  Nat.isDigit_of_mem_toDigits (by decide) (by decide) found

theorem ofDigitChars_digits (x : Decimal) : Nat.ofDigitChars 10 x.digits 0 = x.coefficient :=
  Nat.ofDigitChars_ten_toDigits

theorem nearest_whole (negative : Bool) (coefficient power : Nat) :
    nearest negative ⟨coefficient, .ofNat power⟩ =
      nearest negative ⟨coefficient * 10 ^ power * 10, -1⟩ := by
  rw [← nearest_shift, nearest_eq, nearest_eq]
  change Binary64.ofRatio negative _ 1 =
    Binary64.ofRatio negative (coefficient * 10 ^ power * 10 ^ 0) 1
  rw [Nat.pow_zero, Nat.mul_one]
  rfl

/-- A whole number of the given digits, with a zero behind the point. -/
theorem writes_whole {coefficient power : Nat} {whole : List Char} (nonempty : whole ≠ [])
    (digits : ∀ c ∈ whole, c.isDigit)
    (value : Nat.ofDigitChars 10 whole 0 = coefficient * 10 ^ power) :
    Writes ⟨coefficient, .ofNat power⟩ whole ['0'] where
  whole_ne_nil := nonempty
  fraction_ne_nil := List.cons_ne_nil _ _
  whole_digits := digits
  fraction_digits := List.all_eq_true.mp rfl
  value negative := by
    rw [nearest_whole, ofDigits, Nat.ofDigitChars_append, value, Nat.ofDigitChars_cons]
    simp [Nat.mul_comm 10]

/-- The digits of a coefficient with the point in front of the last `power + 1` of them. -/
theorem writes_padded (coefficient power : Nat) (zeros : Nat)
    (enough : power + 1 < zeros + (Nat.toDigits 10 coefficient).length) :
    let padded := List.replicate zeros '0' ++ Nat.toDigits 10 coefficient
    let point := padded.length - (power + 1)
    Writes ⟨coefficient, .negSucc power⟩ (padded.take point) (padded.drop point) := by
  intro padded point
  have length : padded.length = zeros + (Nat.toDigits 10 coefficient).length := by
    simp only [padded, List.length_append, List.length_replicate]
  have digits : ∀ c ∈ padded, c.isDigit := by
    intro c found
    rcases List.mem_append.mp found with zero | digit
    · rw [List.eq_of_mem_replicate zero]
      decide
    · exact isDigit_of_mem_digits (x := ⟨coefficient, 0⟩) digit
  have value : Nat.ofDigitChars 10 padded 0 = coefficient := by
    rw [Nat.ofDigitChars_append, Nat.ofDigitChars_replicate_zero, Nat.mul_zero]
    exact ofDigitChars_digits ⟨coefficient, 0⟩
  refine ⟨?_, ?_, fun c found => digits c (List.mem_of_mem_take found),
    fun c found => digits c (List.mem_of_mem_drop found), fun negative => ?_⟩
  · rw [← List.length_pos_iff, List.length_take]
    omega
  · rw [← List.length_pos_iff, List.length_drop]
    omega
  · have places : padded.length - point = power + 1 := by omega
    rw [ofDigits, List.take_append_drop, value, List.length_drop, places, Int.natCast_succ,
      ← Int.negSucc_eq]

/-- The positional text has a point already, or gets a zero behind one. -/
theorem positional_writes (x : Decimal) :
    (∃ whole fraction, x.positional = whole ++ '.' :: fraction ∧ x.Writes whole fraction) ∨
      ('.' ∉ x.positional ∧ x.Writes x.positional ['0']) := by
  have plain : ∀ digits : List Char, (∀ c ∈ digits, c.isDigit) → '.' ∉ digits :=
    fun digits all found => absurd (all '.' found) (by decide)
  rcases x with ⟨coefficient, power | power⟩
  · right
    simp only [positional]
    by_cases zero : coefficient = 0
    · simp only [zero, ↓reduceIte]
      refine ⟨by decide, writes_whole (List.cons_ne_nil _ _) (List.all_eq_true.mp rfl) ?_⟩
      rw [Nat.zero_mul]
      rfl
    · simp only [zero, ↓reduceIte, digits]
      have all : ∀ c ∈ Nat.toDigits 10 coefficient ++ List.replicate power '0', c.isDigit := by
        intro c found
        rcases List.mem_append.mp found with digit | zeros
        · exact isDigit_of_mem_digits (x := ⟨coefficient, 0⟩) digit
        · rw [List.eq_of_mem_replicate zeros]
          decide
      refine ⟨plain _ all, writes_whole ?_ all ?_⟩
      · exact fun empty => Nat.toDigits_ne_nil (List.append_eq_nil_iff.mp empty).1
      · rw [Nat.ofDigitChars_append, Nat.ofDigitChars_replicate_zero,
          Nat.ofDigitChars_ten_toDigits, Nat.mul_comm]
  · left
    have enough : power + 1 <
        power + 1 + 1 - (Nat.toDigits 10 coefficient).length +
          (Nat.toDigits 10 coefficient).length := by omega
    exact ⟨_, _, rfl, writes_padded coefficient power _ enough⟩

end Decimal

namespace Binary64

/-- A finite number is written as a sign, digits, a point and digits that have it as their nearest
number. -/
theorem pointedText_finite (x : Finite) :
    ∃ whole fraction : List Char,
      (Binary64.finite x).pointedText = signed x.negative (whole ++ '.' :: fraction) ∧
      whole ≠ [] ∧ fraction ≠ [] ∧ (∀ c ∈ whole, c.isDigit) ∧ (∀ c ∈ fraction, c.isDigit) ∧
      (Decimal.ofDigits whole fraction).nearest x.negative = .finite x := by
  have unsigned : ∀ text, '.' ∈ signed x.negative text ↔ '.' ∈ text := by
    intro text
    cases x.negative <;> simp [signed]
  have appended : ∀ text more, signed x.negative text ++ more = signed x.negative (text ++ more) := by
    intro text more
    cases x.negative <;> simp [signed]
  rcases (x.shortest .up).positional_writes with ⟨whole, fraction, text, writes⟩ | ⟨plain, writes⟩
  · refine ⟨whole, fraction, ?_, writes.whole_ne_nil, writes.fraction_ne_nil, writes.whole_digits,
      writes.fraction_digits, ?_⟩
    · have pointed : '.' ∈ signed x.negative (whole ++ '.' :: fraction) := by
        rw [unsigned]
        exact List.mem_append_right _ List.mem_cons_self
      simp only [pointedText, Binary64.text, text, pointed, ↓reduceIte]
    · rw [writes.value, x.nearest_shortest]
  · refine ⟨_, ['0'], ?_, writes.whole_ne_nil, writes.fraction_ne_nil, writes.whole_digits,
      writes.fraction_digits, ?_⟩
    · have bare : '.' ∉ signed x.negative (x.shortest .up).positional := by rwa [unsigned]
      simp only [pointedText, Binary64.text, bare, ↓reduceIte]
      exact appended _ _
    · rw [writes.value, x.nearest_shortest]

end Binary64

end QueryGuard
