import Symphony.Spec.Format
import Symphony.Verif.Print

/-!
# Fields of printed integers

`debug_print_int` compares the width with the digits alone, and pads between the prefix and
the digits, or behind them. Its output is the field of C where the digits fill the width, and
where they are the whole number and are not followed by zeros.
-/

namespace Symphony

/-- The integer conversions call `debug_print_int`. -/
theorem printConversion_int {c : UInt8} {f : IntFormat} (code : intFormat c = some f)
    (how : Conversion) (value : VaArg) :
    IsBase f.base ∧ printConversion c how value =
      debugPrintInt value.slot how.flags how.width f.base f.sign f.upper := by
  unfold intFormat at code
  by_cases isSigned : c = chr 'd' ∨ c = chr 'i'
  · rw [if_pos isSigned] at code
    cases code
    rcases isSigned with rfl | rfl
    · exact ⟨Or.inr (Or.inl rfl), rfl⟩
    · exact ⟨Or.inr (Or.inl rfl), rfl⟩
  rw [if_neg isSigned] at code
  by_cases decimal : c = chr 'u'
  · rw [if_pos decimal] at code
    cases code
    subst decimal
    exact ⟨Or.inr (Or.inl rfl), rfl⟩
  rw [if_neg decimal] at code
  by_cases lower : c = chr 'x'
  · rw [if_pos lower] at code
    cases code
    subst lower
    exact ⟨Or.inr (Or.inr rfl), rfl⟩
  rw [if_neg lower] at code
  by_cases capital : c = chr 'X'
  · rw [if_pos capital] at code
    cases code
    subst capital
    exact ⟨Or.inr (Or.inr rfl), rfl⟩
  rw [if_neg capital] at code
  by_cases octal : c = chr 'o'
  · rw [if_pos octal] at code
    cases code
    subst octal
    exact ⟨Or.inl rfl, rfl⟩
  · rw [if_neg octal] at code
    cases code

/-- The sign is empty where no sign is due. -/
theorem signChars_eq_nil_iff {v : Int} {flags : Int32} :
    signChars v flags = [] ↔
      0 ≤ v ∧ flags &&& plusForPositive = 0 ∧ flags &&& spaceForPositive = 0 := by
  unfold signChars
  by_cases minus : v < 0
  · simp [minus]
  · by_cases plus : flags &&& plusForPositive = 0
    · by_cases space : flags &&& spaceForPositive = 0
      · simp [minus, plus, space]
        omega
      · simp [minus, plus, space]
    · simp [minus, plus]

/-- The prefix is empty in base ten and without the flag `#`. -/
theorem baseChars_eq_nil_iff {base flags : Int32} {upper : Bool} (isBase : IsBase base) :
    baseChars base flags upper = [] ↔ base = 10 ∨ flags &&& specialHash = 0 := by
  unfold baseChars
  by_cases hash : flags &&& specialHash = 0
  · simp [hash]
  · rcases isBase with rfl | rfl | rfl <;> simp [hash]

/-- A number has neither sign nor prefix where nothing is printed in front of its digits. -/
theorem bare_iff {f : IntFormat} (isBase : IsBase f.base) {flags : Int32} {v : Int} :
    Bare f flags v ↔ signChars v flags ++ baseChars f.base flags f.upper = [] := by
  rw [List.append_eq_nil_iff, signChars_eq_nil_iff, baseChars_eq_nil_iff isBase]
  constructor
  · intro bare
    exact ⟨⟨bare.nonneg, bare.noPlus, bare.noSpace⟩, bare.noBase⟩
  · rintro ⟨⟨nonneg, noPlus, noSpace⟩, noBase⟩
    exact ⟨nonneg, noPlus, noSpace, noBase⟩

/-- As many digits are shown as the number has. -/
theorem length_shownDigits (base n : Nat) (upper : Bool) :
    (shownDigits base n upper).length = (digitsOf base n).length := by
  rw [shownDigits, List.length_map, length_lowDigits]

/-- At width zero a number is printed as its sign, its prefix and its digits. -/
theorem printedInt_width_zero (base flags : Int32) (upper : Bool) (v : Int) :
    printedInt base flags 0 upper v = signChars v flags ++ baseChars base flags upper ++
      shownDigits (wordOfInt base).toNat v.natAbs upper := by
  have nothing : fillChars 0 flags (digitsOf (wordOfInt base).toNat v.natAbs).length = [] := by
    rw [fillChars, show ((0 : Int) - _).toNat = 0 by omega, List.replicate_zero]
  simp only [printedInt, nothing, List.append_nil, ite_self]

/-- The code fills up the width behind the digits alone, C behind the whole number. Both fill
up alike where the width needs nothing, and where the digits are the number. -/
theorem fill_eq_iff (width : Int) (number digits : Nat) :
    (width - digits).toNat = (width - (number + digits : Nat)).toNat ↔
      width ≤ digits ∨ number = 0 := by
  omega

/-- Spaces behind the prefix are in their place where there are none, or no prefix. -/
theorem spaces_eq_iff {number digits : List UInt8} {width : Int} :
    number ++ List.replicate (width - digits.length).toNat (chr ' ') ++ digits =
        List.replicate (width - (number ++ digits).length).toNat (chr ' ') ++ (number ++ digits) ↔
      width ≤ digits.length ∨ number = [] := by
  have fills := fill_eq_iff width number.length digits.length
  rw [List.length_append, ← List.length_eq_zero_iff, ← fills]
  constructor
  · intro same
    have lengths := congrArg List.length same
    simp only [List.length_append, List.length_replicate] at lengths
    omega
  · intro same
    rcases fills.mp same with narrow | empty
    · rw [← same, show (width - digits.length).toNat = 0 by omega]
      simp
    · rw [← same, List.length_eq_zero_iff.mp empty]
      simp

/-- Zeros or spaces behind the digits are the spaces of C where none are needed, or where the
digits are the number and the padding is not zeros. -/
theorem behind_eq_iff {number digits : List UInt8} {width : Int} (zeroes : Prop) [Decidable zeroes] :
    number ++ digits ++
          List.replicate (width - digits.length).toNat (if zeroes then chr '0' else chr ' ') =
        number ++ digits ++
          List.replicate (width - (number ++ digits).length).toNat (chr ' ') ↔
      width ≤ digits.length ∨ number = [] ∧ ¬ zeroes := by
  have fills := fill_eq_iff width number.length digits.length
  have other : chr '0' ≠ chr ' ' := by decide
  rw [List.append_right_inj, List.length_append, ← List.length_eq_zero_iff, List.replicate_inj, fills]
  by_cases isZero : zeroes
  · rw [if_pos isZero]
    simp only [other, isZero, or_false, not_true_eq_false, and_false]
    omega
  · rw [if_neg isZero]
    simp [isZero]

/-- What is printed is the field of C exactly where the digits fill the width, or where they are
the whole number and no zeros follow them. -/
theorem printedInt_eq_field_iff {f : IntFormat} (isBase : IsBase f.base) (flags : Int32) (width : Int)
    (v : Int) :
    printedInt f.base flags width f.upper v =
        field (signChars v flags) (baseChars f.base flags f.upper)
          (shownDigits (wordOfInt f.base).toNat v.natAbs f.upper) flags width ↔
      width ≤ (digitsOf (wordOfInt f.base).toNat v.natAbs).length ∨
        Bare f flags v ∧ ¬ (flags &&& leftAlign ≠ 0 ∧ flags &&& prependZeroes ≠ 0) := by
  rw [bare_iff isBase]
  unfold printedInt field fillChars
  dsimp only
  rw [← length_shownDigits _ _ f.upper]
  generalize shownDigits (wordOfInt f.base).toNat v.natAbs f.upper = digits
  generalize signChars v flags ++ baseChars f.base flags f.upper = number
  by_cases left : flags &&& leftAlign ≠ 0
  · rw [if_neg left, if_pos left, if_pos left, List.append_nil, behind_eq_iff]
    simp only [left, true_and, ne_eq, not_false_eq_true]
  · have right := not_not.mp left
    rw [if_pos right, if_neg left, if_neg left, List.append_nil]
    by_cases zeroes : flags &&& prependZeroes ≠ 0
    · rw [if_pos zeroes, if_pos zeroes, List.append_left_inj, List.append_right_inj,
        List.replicate_left_inj, List.length_append, fill_eq_iff, List.length_eq_zero_iff]
      simp [left]
    · rw [if_neg zeroes, if_neg zeroes, spaces_eq_iff]
      simp [left]

/-- For every integer conversion, flags, width and value, the output is laid out as in C exactly
where the value has a negation, and the digits fill the width or are the whole number with no
zeros asked for behind them. -/
theorem printConversion_laidOut {c : UInt8} {f : IntFormat} (code : intFormat c = some f)
    (how : Conversion) (value : VaArg) :
    LaidOut c f how value ↔
      signedValue value.slot f.sign ≠ -2 ^ 63 ∧
        (how.width ≤
            (digitsOf (wordOfInt f.base).toNat (signedValue value.slot f.sign).natAbs).length ∨
          Bare f how.flags (signedValue value.slot f.sign) ∧
            ¬ (how.flags &&& leftAlign ≠ 0 ∧ how.flags &&& prependZeroes ≠ 0)) := by
  obtain ⟨isBase, printed⟩ := printConversion_int code how value
  obtain ⟨-, narrow⟩ := printConversion_int code { how with width := 0 } value
  unfold LaidOut
  dsimp only at narrow ⊢
  rw [printed, narrow, ← printedInt_eq_field_iff isBase, ← printedInt_width_zero]
  simp only [debugPrintInt_eq_ok isBase]
  constructor
  · rintro ⟨p, q, ⟨negatable, same⟩, -, -, out⟩
    subst same
    exact ⟨negatable, out⟩
  · rintro ⟨negatable, out⟩
    exact ⟨_, _, ⟨negatable, rfl⟩, ⟨negatable, rfl⟩, rfl, out⟩

/-- A number that is filled up with zeros is laid out. -/
theorem printConversion_laidOut_zeros :
    LaidOut (chr 'u') ⟨10, false, false⟩ ⟨prependZeroes, 5, .int, 3⟩ ⟨42, none⟩ :=
  (printConversion_laidOut rfl ⟨prependZeroes, 5, .int, 3⟩ ⟨42, none⟩).mpr
    ⟨by decide, Or.inr ⟨⟨by decide, rfl, rfl, Or.inl rfl⟩, by decide⟩⟩

/-- The format `%5d`. -/
def paddedFormat : CString where
  bytes := ['%', '5', 'd'].map chr
  noNul := by decide
  fits := by decide

/-- The format `%-05u`. -/
def leftZeroFormat : CString where
  bytes := ['%', '-', '0', '5', 'u'].map chr
  noNul := by decide
  fits := by decide

/-- Spaces separate a minus from its digit, and zeros behind a number multiply it. -/
theorem fields_torn :
    ((∃ p, debugVprintf paddedFormat [⟨0xfffffffffffffff9, none⟩] = .ok p ∧
        p.out = ['-', ' ', ' ', ' ', ' ', '7'].map chr) ∧
      ¬ LaidOut (chr 'd') ⟨10, true, false⟩ ⟨0, 5, .int, 2⟩ ⟨0xfffffffffffffff9, none⟩) ∧
    (∃ p, debugVprintf leftZeroFormat [⟨42, none⟩] = .ok p ∧
        p.out = ['4', '2', '0', '0', '0'].map chr) ∧
      ¬ LaidOut (chr 'u') ⟨10, false, false⟩ ⟨leftAlign ||| prependZeroes, 5, .int, 4⟩ ⟨42, none⟩ := by
  refine ⟨⟨⟨_, rfl, rfl⟩, ?_⟩, ⟨_, rfl, rfl⟩, ?_⟩
  · rintro ⟨p, q, printed, -, -, out⟩
    have torn : printConversion (chr 'd') ⟨0, 5, .int, 2⟩ ⟨0xfffffffffffffff9, none⟩ =
        .ok ⟨['-', ' ', ' ', ' ', ' ', '7'].map chr, 6⟩ := rfl
    rw [torn] at printed
    cases printed
    have minus : signChars (signedValue 0xfffffffffffffff9 true) 0 = [chr '-'] := rfl
    exact absurd (congrArg List.head? out) (by
      decide)
  · rintro ⟨p, q, printed, -, -, out⟩
    have torn : printConversion (chr 'u') ⟨leftAlign ||| prependZeroes, 5, .int, 4⟩ ⟨42, none⟩ =
        .ok ⟨['4', '2', '0', '0', '0'].map chr, 5⟩ := rfl
    rw [torn] at printed
    cases printed
    exact absurd (congrArg List.getLast? out) (by
      decide)

end Symphony
