import QueryGuard.Proofs.Lexing.Tiling
import QueryGuard.Proofs.Number.Overflow
import QueryGuard.Proofs.Reading.Expressions
/-!
Decimal numbers of sources, and which of them are read back from their own text: those that are finite. A
number too large for that is accepted as an infinity, whose text is no number.
-/

set_option autoImplicit false

namespace QueryGuard

/-- The tokens of a text without their places. -/
def tokensOf (text : List Char) : Except LexicalError (List Token) :=
  (tokenize (String.ofList text)).map (·.map Lexeme.token)

/-- A decimal number as it is written: digits on both sides of a point. -/
structure DecimalNumeral where
  whole : List Char
  fraction : List Char
  whole_ne_nil : whole ≠ []
  fraction_ne_nil : fraction ≠ []
  whole_digits : ∀ c ∈ whole, c.isDigit
  fraction_digits : ∀ c ∈ fraction, c.isDigit

namespace DecimalNumeral

def text (numeral : DecimalNumeral) : String :=
  String.ofList (numeral.whole ++ '.' :: numeral.fraction)

/-- All digits as one integer. -/
def coefficient (numeral : DecimalNumeral) : Nat :=
  Nat.ofDigitChars 10 (numeral.whole ++ numeral.fraction) 0

/-- The number that a source means by the numeral. -/
def value (numeral : DecimalNumeral) : Binary64 :=
  (Decimal.ofDigits numeral.whole numeral.fraction).nearest false

/-- The numeral is smaller than half a unit behind the largest finite number. -/
def InRange (numeral : DecimalNumeral) : Prop :=
  numeral.coefficient < Binary64.overflow * 10 ^ numeral.fraction.length

instance (numeral : DecimalNumeral) : Decidable numeral.InRange :=
  inferInstanceAs (Decidable (_ < _))

end DecimalNumeral

/-- The text of a constant number is one token of the same value, behind a minus sign if the parser has
negated the number. -/
structure Binary64.ReadsBack (x : Binary64) : Prop where
  plain : tokensOf (Literal.decimal x).print = .ok [.decimal x]
  negated : tokensOf (Literal.decimal x.neg).print = .ok [.symbol .minus, .decimal x]

/-- The text of a constant number starts like a path, with a name and a point, but goes on with an integer. -/
structure Binary64.ReadsAsName (x : Binary64) : Prop where
  plain : tokensOf (Literal.decimal x).print = .ok [.name "inf", .symbol .dot, .integer 0]
  negated : tokensOf (Literal.decimal x.neg).print =
    .ok [.symbol .minus, .name "inf", .symbol .dot, .integer 0]

open Lexing

theorem Lexing.Splits.tokensOf {text : List Char} {words : List Word} (splits : Splits text words) :
    tokensOf text = .ok (words.map Word.token) := by
  obtain ⟨ends, lexemes⟩ := splits.scan 0
  rw [QueryGuard.tokensOf, tokenize_ofList, ends, ← lexemes, List.map_map]
  rfl

theorem Lexing.Spelled.tokensOf {edge : Char → Bool} {text : List Char} {words : List Word}
    (spelled : Spelled edge text words) : QueryGuard.tokensOf text = .ok (words.map Word.token) := by
  have splits := spelled [] [] (.nil edge) .nil
  rw [List.append_nil, List.append_nil] at splits
  exact splits.tokensOf

namespace Binary64

/-- The text of a finite number is its sign and its absolute value. -/
theorem tokensOf_finite (x : Finite) : tokensOf (Literal.decimal (.finite x)).print =
    .ok (if x.negative then [.symbol .minus, .decimal (Binary64.finite x).neg]
      else [.decimal (.finite x)]) := by
  obtain ⟨whole, fraction, text, nonempty, behind, digits, further, nearest⟩ := pointedText_finite x
  have spelled := ((numeral_decimal nonempty behind digits further).signed x.negative).tokensOf
  rw [← text] at spelled
  refine spelled.trans ?_
  cases negative : x.negative with
  | false =>
    rw [negative] at nearest
    rw [← nearest]
    rfl
  | true =>
    rw [negative, Decimal.nearest_true] at nearest
    rw [← nearest, neg_neg]
    rfl

theorem ReadsBack.of_finite {x : Binary64} (finite : x.IsFinite) (positive : x.isNegative = false) :
    x.ReadsBack := by
  obtain ⟨x, rfl⟩ := finite
  change x.negative = false at positive
  have opposite : (finite x).neg = .finite { x with negative := true } := by
    rw [neg, positive, Bool.not_false]
  refine ⟨?_, ?_⟩
  · refine (tokensOf_finite x).trans ?_
    rw [positive]
    rfl
  · rw [opposite]
    refine (tokensOf_finite _).trans ?_
    rw [← opposite, neg_neg]
    rfl

theorem readsAsName_infinite : (infinite false).ReadsAsName := by
  have plain : scan "inf.0" = ⟨[⟨.name "inf", "inf", .between 0 3⟩, ⟨.symbol .dot, ".", .between 3 4⟩,
      ⟨.integer 0, "0", .between 4 5⟩], none⟩ := by
    decide +kernel
  have negated : scan "-inf.0" = ⟨[⟨.symbol .minus, "-", .between 0 1⟩,
      ⟨.name "inf", "inf", .between 1 4⟩, ⟨.symbol .dot, ".", .between 4 5⟩,
      ⟨.integer 0, "0", .between 5 6⟩], none⟩ := by
    decide +kernel
  have text : (Literal.decimal (infinite false)).print = "inf.0".toList := by decide
  have text' : (Literal.decimal (infinite false).neg).print = "-inf.0".toList := by decide
  refine ⟨?_, ?_⟩
  · rw [text, tokensOf, String.ofList_toList, tokenize, plain]
    rfl
  · rw [text', tokensOf, String.ofList_toList, tokenize, negated]
    rfl

theorem ReadsBack.not_readsAsName {x : Binary64} (back : x.ReadsBack) : ¬ x.ReadsAsName := by
  intro name
  have same := back.plain.symm.trans name.plain
  cases same

end Binary64

namespace DecimalNumeral

/-- A numeral is one token, whatever its size. -/
theorem tokenize_text (numeral : DecimalNumeral) : tokenize numeral.text =
    .ok [⟨.decimal numeral.value, numeral.text, .between 0 numeral.text.utf8ByteSize⟩] := by
  obtain ⟨whole, fraction, nonempty, behind, digits, further⟩ := numeral
  obtain ⟨c, whole, rfl⟩ := List.exists_cons_of_ne_nil nonempty
  obtain ⟨d, fraction, rfl⟩ := List.exists_cons_of_ne_nil behind
  obtain ⟨digit, others⟩ := List.forall_mem_cons.mp digits
  exact tokenize_alone (.decimal digit others further (.nil _))

/-- Each decimal number of a source is written as a numeral. -/
theorem of_tokenize {source : String} {lexemes : List Lexeme} (tokens : tokenize source = .ok lexemes)
    {lexeme : Lexeme} (member : lexeme ∈ lexemes) {value : Binary64}
    (decimal : lexeme.token = .decimal value) :
    ∃ numeral : DecimalNumeral, lexeme.text = numeral.text ∧ value = numeral.value := by
  obtain ⟨_, word, _, _, spelled, piece, _⟩ := (tiles_of_tokenize tokens).placed lexeme member
  generalize found : lexeme.token = token at piece decimal
  cases piece with
  | @decimal c d whole fraction _ digit allWhole allFraction _ =>
    exact ⟨⟨c :: whole, d :: fraction, List.cons_ne_nil _ _, List.cons_ne_nil _ _,
      List.forall_mem_cons.mpr ⟨digit, allWhole⟩, allFraction⟩, spelled, (Token.decimal.inj decimal).symm⟩
  | @word c parts =>
    rw [Lexing.word] at decimal
    split at decimal <;> cases decimal
  | quoted quotes => cases quotes <;> cases decimal
  | _ => cases decimal

theorem value_eq (numeral : DecimalNumeral) : numeral.value =
    .ofRatio false numeral.coefficient (10 ^ numeral.fraction.length) :=
  Decimal.nearest_neg false _ _

theorem finite_iff (numeral : DecimalNumeral) : numeral.value.IsFinite ↔ numeral.InRange := by
  rw [value_eq]
  exact Binary64.ofRatio_finite_iff false _ (Decimal.ten_pow_pos _)

theorem readsBack (numeral : DecimalNumeral) (range : numeral.InRange) : numeral.value.ReadsBack := by
  refine .of_finite (numeral.finite_iff.mpr range) ?_
  rw [value_eq]
  exact Binary64.isNegative_ofRatio _ _ _

theorem infinite (numeral : DecimalNumeral) (large : ¬ numeral.InRange) :
    numeral.value = .infinite false := by
  rw [value_eq]
  exact Binary64.ofRatio_infinite false (Decimal.ten_pow_pos _) (Nat.le_of_not_lt large)

/-- Where the numeral stands in a source as a lexeme, it is this number. -/
theorem token_of_tokenize (numeral : DecimalNumeral) {source : String} {lexemes : List Lexeme}
    (tokens : tokenize source = .ok lexemes) {lexeme : Lexeme} (member : lexeme ∈ lexemes)
    (written : lexeme.text = numeral.text) : lexeme.token = .decimal numeral.value := by
  have alone := (tiles_of_tokenize tokens).tiled.alone lexeme member
  rw [written, numeral.tokenize_text] at alone
  exact congrArg Lexeme.token (List.cons.inj (Except.ok.inj alone)).1.symm

/-- Digits on both sides of a point are one number of a source, whatever their value. The text of the number
is read back as it exactly if the digits are smaller than half a unit behind the largest finite number.
Otherwise the number is an infinity, whose text is no number. -/
theorem readsBack_iff (numeral : DecimalNumeral) :
    tokenize numeral.text =
        .ok [⟨.decimal numeral.value, numeral.text, .between 0 numeral.text.utf8ByteSize⟩] ∧
      (∀ source lexemes, tokenize source = .ok lexemes → ∀ lexeme ∈ lexemes,
        lexeme.text = numeral.text → lexeme.token = .decimal numeral.value) ∧
      (numeral.value.ReadsBack ↔ numeral.InRange) ∧
      (¬ numeral.InRange → numeral.value = .infinite false ∧ numeral.value.ReadsAsName) := by
  have misread (large : ¬ numeral.InRange) : numeral.value.ReadsAsName := by
    rw [numeral.infinite large]
    exact Binary64.readsAsName_infinite
  refine ⟨numeral.tokenize_text, fun _ _ tokens _ member => numeral.token_of_tokenize tokens member,
    ⟨fun back => ?_, numeral.readsBack⟩, fun large => ⟨numeral.infinite large, misread large⟩⟩
  exact Decidable.byContradiction fun large => back.not_readsAsName (misread large)

/-- A half is read back, and a power of ten is accepted that is too large for a finite number. -/
theorem readsBack_iff_power :
    let half : DecimalNumeral := ⟨['0'], ['5'], List.cons_ne_nil _ _, List.cons_ne_nil _ _,
      List.all_eq_true.mp rfl, List.all_eq_true.mp rfl⟩
    let power : DecimalNumeral := ⟨'1' :: List.replicate 309 '0', ['0'], List.cons_ne_nil _ _,
      List.cons_ne_nil _ _,
      List.forall_mem_cons.mpr ⟨rfl, fun _ found => List.eq_of_mem_replicate found ▸ rfl⟩,
      List.all_eq_true.mp rfl⟩
    half.value.ReadsBack ∧ ¬ power.InRange ∧ power.value = .infinite false ∧
      power.value.ReadsAsName ∧ ∃ lexemes, tokenize power.text = .ok lexemes ∧
        ∀ lexeme ∈ lexemes, lexeme.text = power.text → lexeme.token = .decimal power.value := by
  intro half power
  have small : half.InRange := by decide +kernel
  have large : ¬ power.InRange := by decide +kernel
  obtain ⟨accepted, placed, _, beyond⟩ := power.readsBack_iff
  exact ⟨half.readsBack_iff.2.2.1.mpr small, large, (beyond large).1, (beyond large).2, _, accepted,
    placed _ _ accepted⟩

end DecimalNumeral

end QueryGuard
