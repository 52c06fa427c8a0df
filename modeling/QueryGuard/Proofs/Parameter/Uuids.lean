import QueryGuard.Parameter.Value
/-!
The texts of identifiers. A text is read if sixteen pairs of hexadecimal digits are left of it without
its hyphens, where a plus sign may stand for the first digit of a pair. All identifiers are read
from the texts that they are printed as.
-/

set_option autoImplicit false

namespace QueryGuard

/-! ### Digits -/

namespace Text

/-- The hexadecimal digits in both cases. -/
def hexDigits : List Char := "0123456789abcdefABCDEF".toList

theorem hexDigit?_digitChar : ∀ digit < 16, hexDigit? (Nat.digitChar digit) = some digit := by
  decide

theorem exists_hexDigit? : ∀ c ∈ hexDigits, ∃ digit, hexDigit? c = some digit := by
  have each : ∀ c ∈ hexDigits, (hexDigit? c).isSome := List.all_eq_true.mp rfl
  exact fun c member => Option.isSome_iff_exists.mp (each c member)

theorem toNat_lt_of_hexDigit? {c : Char} {digit : Nat} (read : hexDigit? c = some digit) :
    c.toNat < 103 := by
  unfold hexDigit? at read
  split at read
  · rename_i decimal
    simp only [Char.isDigit, Bool.and_eq_true, decide_eq_true_eq] at decimal
    exact Nat.lt_of_le_of_lt (UInt32.le_iff_toNat_le.mp decimal.2) (by decide)
  · split at read
    · rename_i lower
      exact Nat.lt_of_le_of_lt (UInt32.le_iff_toNat_le.mp lower.2) (by decide)
    · split at read
      · rename_i upper
        exact Nat.lt_of_le_of_lt (UInt32.le_iff_toNat_le.mp upper.2) (by decide)
      · cases read

/-- A digit is written as its value is printed, in either case. -/
theorem digit_of_hexDigit? {c : Char} {digit : Nat} (read : hexDigit? c = some digit) :
    digit < 16 ∧ c ∈ hexDigits ∧ Nat.digitChar digit = c.toLower := by
  have all : ∀ code < 103, (hexDigit? (Char.ofNat code)).all (fun digit =>
      digit < 16 ∧ Char.ofNat code ∈ hexDigits ∧
        Nat.digitChar digit = (Char.ofNat code).toLower) = true := by decide +kernel
  have here := all c.toNat (toNat_lt_of_hexDigit? read)
  rw [Char.ofNat_toNat, read] at here
  exact of_decide_eq_true here

end Text

namespace Uuid

/-- The digit that is printed for a character: it is in lower case, and a plus sign counts as zero. -/
def shown (c : Char) : Char := if c = '+' then '0' else c.toLower

theorem shown_digit {c : Char} {digit : Nat} (read : Text.hexDigit? c = some digit) :
    shown c = Nat.digitChar digit := by
  have other : c ≠ '+' := by
    rintro rfl
    cases read
  rw [shown, if_neg other, (Text.digit_of_hexDigit? read).2.2]

/-! ### Bytes -/

/-- The characters come in pairs of digits; the first of a pair may be a plus sign. -/
inductive Paired : List Char → Prop where
  | nil : Paired []
  | pair {high low : Char} {rest : List Char} (first : high = '+' ∨ high ∈ Text.hexDigits)
      (second : low ∈ Text.hexDigits) (others : Paired rest) : Paired (high :: low :: rest)

instance decidablePaired : (chars : List Char) → Decidable (Paired chars)
  | [] => isTrue .nil
  | [_] => isFalse nofun
  | high :: low :: rest =>
    have := decidablePaired rest
    decidable_of_iff ((high = '+' ∨ high ∈ Text.hexDigits) ∧ low ∈ Text.hexDigits ∧ Paired rest)
      ⟨fun ⟨first, second, others⟩ => .pair first second others,
        fun | .pair first second others => ⟨first, second, others⟩⟩

/-- The digits of bytes, without hyphens. -/
def digits (bytes : List UInt8) : List Char := bytes.flatMap fun byte => Text.hexPair byte.toNat

theorem hexPair_ofNat {high low : Nat} (first : high < 16) (second : low < 16) :
    Text.hexPair (UInt8.ofNat (high * 16 + low)).toNat = [Nat.digitChar high, Nat.digitChar low] := by
  have value : (UInt8.ofNat (high * 16 + low)).toNat = high * 16 + low :=
    UInt8.toNat_ofNat_of_lt' (by change _ < 256; omega)
  have front : (high * 16 + low) / 16 = high := by omega
  have back : (high * 16 + low) % 16 = low := by omega
  rw [value, Text.hexPair, front, back]

theorem byte?_eq_some {high low : Char} {byte : UInt8} (read : byte? high low = some byte) :
    (high = '+' ∨ high ∈ Text.hexDigits) ∧ low ∈ Text.hexDigits ∧
      Text.hexPair byte.toNat = [shown high, shown low] := by
  obtain ⟨lowDigit, readLow, read⟩ := Option.bind_eq_some_iff.mp read
  obtain ⟨small, among, _⟩ := Text.digit_of_hexDigit? readLow
  rw [shown_digit readLow]
  split at read
  · rename_i plus
    obtain rfl := Option.some.inj read
    refine ⟨.inl plus, among, ?_⟩
    have pair := hexPair_ofNat (show 0 < 16 by decide) small
    rw [Nat.zero_mul, Nat.zero_add] at pair
    rw [pair, plus]
    rfl
  · obtain ⟨highDigit, readHigh, read⟩ := Option.bind_eq_some_iff.mp read
    obtain rfl := Option.some.inj read
    obtain ⟨small', among', _⟩ := Text.digit_of_hexDigit? readHigh
    rw [shown_digit readHigh]
    exact ⟨.inr among', among, hexPair_ofNat small' small⟩

theorem exists_byte? {high low : Char} (first : high = '+' ∨ high ∈ Text.hexDigits)
    (second : low ∈ Text.hexDigits) : ∃ byte, byte? high low = some byte := by
  obtain ⟨lowDigit, readLow⟩ := Text.exists_hexDigit? low second
  rw [byte?, readLow, Option.bind_eq_bind, Option.bind_some]
  split
  · exact ⟨_, rfl⟩
  · rename_i other
    obtain ⟨highDigit, readHigh⟩ := Text.exists_hexDigit? high (first.resolve_left other)
    rw [readHigh]
    exact ⟨_, rfl⟩

/-- The digits of the bytes are what was read, in lower case. -/
theorem bytes?_eq_some {chars : List Char} {bytes : List UInt8} (read : bytes? chars = some bytes) :
    Paired chars ∧ chars.length = 2 * bytes.length ∧ digits bytes = chars.map shown := by
  induction chars using bytes?.induct generalizing bytes with
  | case1 =>
    obtain rfl := Option.some.inj read
    exact ⟨.nil, rfl, rfl⟩
  | case2 => cases read
  | case3 high low rest ih =>
    obtain ⟨byte, first, read⟩ := Option.bind_eq_some_iff.mp read
    obtain ⟨others, further, read⟩ := Option.bind_eq_some_iff.mp read
    obtain rfl := Option.some.inj read
    obtain ⟨paired, length, same⟩ := ih further
    obtain ⟨highFits, lowFits, pair⟩ := byte?_eq_some first
    refine ⟨.pair highFits lowFits paired, ?_, ?_⟩
    · rw [List.length_cons, List.length_cons, List.length_cons, length]
      omega
    · rw [digits, List.flatMap_cons, pair, ← digits, same]
      rfl

theorem exists_bytes? {chars : List Char} (paired : Paired chars) :
    ∃ bytes, bytes? chars = some bytes := by
  induction paired with
  | nil => exact ⟨[], rfl⟩
  | pair first second _ ih =>
    obtain ⟨byte, read⟩ := exists_byte? first second
    obtain ⟨bytes, further⟩ := ih
    exact ⟨byte :: bytes, by rw [bytes?, read, further]; rfl⟩

theorem byte?_hexPair (byte : UInt8) :
    byte? (Nat.digitChar (byte.toNat / 16)) (Nat.digitChar (byte.toNat % 16)) = some byte := by
  have bound := byte.toNat_lt
  have high := Text.hexDigit?_digitChar (byte.toNat / 16) (by omega)
  have low := Text.hexDigit?_digitChar (byte.toNat % 16) (by omega)
  have other : Nat.digitChar (byte.toNat / 16) ≠ '+' := by
    intro plus
    rw [plus] at high
    cases high
  have value : byte.toNat / 16 * 16 + byte.toNat % 16 = byte.toNat := by omega
  rw [byte?, low, high, Option.bind_eq_bind, Option.bind_some, if_neg other, Option.bind_some, value,
    UInt8.ofNat_toNat]
  rfl

theorem bytes?_digits (bytes : List UInt8) : bytes? (digits bytes) = some bytes := by
  induction bytes with
  | nil => rfl
  | cons byte rest ih =>
    rw [digits, List.flatMap_cons, Text.hexPair, ← digits, List.cons_append, List.singleton_append,
      bytes?, byte?_hexPair, ih]
    rfl

/-! ### Texts -/

/-- What is left of a text without its hyphens. -/
def bare (text : String) : List Char := text.toList.filter (· ≠ '-')

theorem parse?_eq_some_iff {text : String} {id : Uuid} :
    parse? text = some id ↔ bytes? (bare text) = some id.bytes := by
  rw [parse?, ← bare]
  cases bytes? (bare text) with
  | none => exact ⟨nofun, nofun⟩
  | some bytes =>
    rw [Option.bind_eq_bind, Option.bind_some, Option.some.injEq]
    constructor
    · intro read
      split at read
      · rw [← Option.some.inj read]
      · cases read
    · rintro rfl
      exact dif_pos id.length_eq

/-- Neighbouring parts of a list make one part. -/
theorem slice_append {α : Type} (items : List α) {first second third : Nat} (before : first ≤ second)
    (after : second ≤ third) :
    (items.take second).drop first ++ (items.take third).drop second =
      (items.take third).drop first := by
  obtain ⟨length, rfl⟩ := Nat.exists_eq_add_of_le before
  obtain ⟨further, rfl⟩ := Nat.exists_eq_add_of_le after
  rw [List.drop_take, List.drop_take, List.drop_take, Nat.add_sub_cancel_left,
    Nat.add_sub_cancel_left, Nat.add_assoc first, Nat.add_sub_cancel_left, List.take_add,
    List.drop_drop]

theorem filter_digits (bytes : List UInt8) : (digits bytes).filter (· ≠ '-') = digits bytes := by
  have other : ∀ digit < 16, Nat.digitChar digit ≠ '-' := by decide
  refine List.filter_eq_self.mpr fun c member => decide_eq_true ?_
  obtain ⟨byte, _, among⟩ := List.mem_flatMap.mp member
  have bound := byte.toNat_lt
  rcases List.mem_cons.mp among with rfl | among
  · exact other _ (by omega)
  · rw [List.mem_singleton.mp among]
    exact other _ (by omega)

theorem digits_append (first second : List UInt8) :
    digits first ++ digits second = digits (first ++ second) :=
  List.flatMap_append.symm

/-- Without its hyphens, the text of an identifier is the digits of its bytes. -/
theorem bare_text (id : Uuid) : bare (Value.uuid id).text = digits id.bytes := by
  have printed : (Value.uuid id).print = id.print := rfl
  have groups : id.print = digits ((id.bytes.take 4).drop 0) ++
      '-' :: digits ((id.bytes.take 6).drop 4) ++ '-' :: digits ((id.bytes.take 8).drop 6) ++
      '-' :: digits ((id.bytes.take 10).drop 8) ++ '-' :: digits ((id.bytes.take 16).drop 10) := rfl
  have hyphen : ∀ chars : List Char, ('-' :: chars).filter (· ≠ '-') = chars.filter (· ≠ '-') :=
    fun _ => rfl
  have whole : (id.bytes.take 16).drop 0 = id.bytes := by
    rw [List.drop_zero, List.take_of_length_le (Nat.le_of_eq id.length_eq)]
  rw [bare, Value.text, String.toList_ofList, printed, groups]
  simp only [List.filter_append, hyphen, filter_digits, digits_append]
  rw [slice_append _ (by decide) (by decide), slice_append _ (by decide) (by decide),
    slice_append _ (by decide) (by decide), slice_append _ (by decide) (by decide), whole]

theorem not_paired_plus {chars : List Char} (paired : Paired chars) (none : '+' ∉ chars) :
    ∀ c ∈ chars, c ∈ Text.hexDigits := by
  induction paired with
  | nil => exact List.forall_mem_nil _
  | pair first second _ ih =>
    rw [List.mem_cons, List.mem_cons, not_or, not_or] at none
    exact List.forall_mem_cons.mpr ⟨first.resolve_left (Ne.symm none.1),
      List.forall_mem_cons.mpr ⟨second, ih none.2.2⟩⟩

theorem paired_of_digits (count : Nat) {chars : List Char} (length : chars.length = 2 * count)
    (each : ∀ c ∈ chars, c ∈ Text.hexDigits) : Paired chars := by
  induction count generalizing chars with
  | zero =>
    rw [List.length_eq_zero_iff.mp length]
    exact .nil
  | succ count ih =>
    match chars, length, each with
    | high :: low :: rest, length, each =>
      obtain ⟨first, others⟩ := List.forall_mem_cons.mp each
      obtain ⟨second, others⟩ := List.forall_mem_cons.mp others
      refine .pair (.inr first) second (ih ?_ others)
      rw [List.length_cons, List.length_cons] at length
      omega

/-- A text is read if it has sixteen pairs of digits besides its hyphens, where a plus sign may stand for
the first digit of a pair; so those that are read and have no plus sign are the ones with 32 digits. What is
read is printed with the digits of the text in lower case, and all that is printed is read. -/
theorem parse_digits (text : String) :
    ((parse? text).isSome ↔ (bare text).length = 32 ∧ Paired (bare text)) ∧
    ((parse? text).isSome ∧ '+' ∉ text.toList ↔
      (bare text).length = 32 ∧ ∀ c ∈ bare text, c ∈ Text.hexDigits) ∧
    (∀ id, parse? text = some id →
      bare (Value.uuid id).text = (bare text).map fun c => if c = '+' then '0' else c.toLower) ∧
    ∀ id : Uuid, parse? (Value.uuid id).text = some id := by
  have accepts : (parse? text).isSome ↔ (bare text).length = 32 ∧ Paired (bare text) := by
    rw [Option.isSome_iff_exists]
    constructor
    · rintro ⟨id, read⟩
      obtain ⟨paired, length, _⟩ := bytes?_eq_some (parse?_eq_some_iff.mp read)
      exact ⟨by rw [length, id.length_eq], paired⟩
    · rintro ⟨length, paired⟩
      obtain ⟨bytes, read⟩ := exists_bytes? paired
      have count := (bytes?_eq_some read).2.1
      exact ⟨⟨bytes, by omega⟩, parse?_eq_some_iff.mpr read⟩
  have sign : '+' ∈ bare text ↔ '+' ∈ text.toList := by
    rw [bare, List.mem_filter]
    exact and_iff_left rfl
  refine ⟨accepts, ?_, fun id read => ?_, fun id => ?_⟩
  · rw [accepts, ← sign]
    constructor
    · rintro ⟨⟨length, paired⟩, none⟩
      exact ⟨length, not_paired_plus paired none⟩
    · rintro ⟨length, each⟩
      refine ⟨⟨length, paired_of_digits 16 length each⟩, fun plus => ?_⟩
      exact absurd (each _ plus) (by decide)
  · rw [bare_text]
    exact (bytes?_eq_some (parse?_eq_some_iff.mp read)).2.2
  · rw [parse?_eq_some_iff, bare_text]
    exact bytes?_digits id.bytes

/-- A text with sixteen digits and as many plus signs is read. -/
theorem parse_digits_signed :
    let text := "+1+2+3+4-+5+6-+7+8-+9+a-+b+c+d+e+f+0"
    (parse? text).isSome ∧ (¬ ∀ c ∈ bare text, c ∈ Text.hexDigits) ∧
      ∀ id, parse? text = some id →
        bare (Value.uuid id).text = "0102030405060708090a0b0c0d0e0f00".toList := by
  intro text
  obtain ⟨accepts, _, shows, _⟩ := parse_digits text
  refine ⟨accepts.mpr (by decide +kernel), fun digits => ?_, fun id read => ?_⟩
  · exact absurd (digits '+' (by decide +kernel)) (by decide)
  · exact (shows id read).trans (by decide +kernel)

end Uuid

end QueryGuard
