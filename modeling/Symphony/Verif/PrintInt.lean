import Symphony.Spec.Print
import Symphony.Library.Memory
import Symphony.Library.Loop

/-!
# The integer formatter

`debug_print_int` reverses the number in 64 bits and peels the digits off the reversal. Its
output is the sign, the prefix of the base, the padding and the shown digits; the digits are
those of the number exactly where the reversal fits into 64 bits.
-/

namespace Symphony

/-! ## The loops -/

/-- The first loop counts the digits and reverses the number modulo 2^64. -/
theorem reverseDigits_eq {base : UInt64} (two : 2 ≤ base.toNat) {fuel : Nat} (dcount : Nat)
    (revn n : UInt64) (positive : 0 < fuel) (enough : n.toNat < 2 ^ fuel) :
    reverseDigits base fuel dcount revn n =
      .ok (dcount + (digitsOf base.toNat n.toNat).length, UInt64.ofNat
        (revn.toNat * base.toNat ^ (digitsOf base.toNat n.toNat).length +
          reversal base.toNat n.toNat)) := by
  have nonzero : base ≠ 0 := by
    intro zero
    rw [zero] at two
    exact absurd two (by decide)
  induction fuel generalizing dcount revn n with
  | zero => exact absurd positive (Nat.lt_irrefl 0)
  | succ fuel ih =>
    have next : (n / base).toNat = n.toNat / base.toNat := UInt64.toNat_div n base
    have last : (n % base).toNat = n.toNat % base.toNat := UInt64.toNat_mod n base
    have done : n / base = 0 ↔ n.toNat / base.toNat = 0 := by
      rw [← UInt64.toNat_inj, next]
      rfl
    rw [reverseDigits, if_neg nonzero]
    by_cases small : n / base = 0
    · rw [if_neg (not_not.mpr small), digitsOf_of_lt two (done.mp small),
        reversal_of_lt two (done.mp small)]
      congr 2
      rw [← UInt64.toNat_inj, UInt64.toNat_add, UInt64.toNat_mul, UInt64.toNat_ofNat', last]
      simp
    · have large := mt done.mpr small
      have shorter : (n / base).toNat < 2 ^ fuel := by
        rw [next, Nat.div_lt_iff_lt_mul (by omega)]
        calc n.toNat < 2 ^ fuel * 2 := by rwa [← Nat.pow_succ]
          _ ≤ 2 ^ fuel * base.toNat := Nat.mul_le_mul_left _ two
      have some : 0 < fuel := by
        refine Nat.pos_of_ne_zero fun zero => large ?_
        rw [zero, next] at shorter
        omega
      have digit : n % base = UInt64.ofNat (n.toNat % base.toNat) := by
        rw [← last, UInt64.ofNat_toNat]
      rw [if_pos small, ih (dcount + 1) _ _ some shorter, next, digitsOf_of_ge two large,
        reversal_of_ge two large, List.length_append, List.length_singleton, Nat.pow_succ]
      generalize (digitsOf base.toNat (n.toNat / base.toNat)).length = count
      congr 2
      · omega
      · simp only [UInt64.ofNat_add, UInt64.ofNat_mul, UInt64.ofNat_toNat, digit]
        grind

/-- A padding loop prints a character repeatedly and counts it. -/
theorem padding_eq (c : UInt8) (count : Nat) (p : Printer) :
    padding c count p = ⟨p.out ++ List.replicate count c, p.chars + count⟩ := by
  induction count generalizing p with
  | zero => simp [padding]
  | succ count ih =>
    rw [padding, ih]
    simp only [Printer.count, Printer.putchar, debugPutchar, List.append_assoc,
      List.replicate_succ, List.singleton_append, Printer.mk.injEq, true_and]
    omega

/-- The digits of both tables. -/
theorem digits_getElem? (upper : Bool) {d : Nat} (small : d < 16) :
    (if upper then digitsUpper else digitsLower)[d]? = some (digitChar upper d) := by
  have table (upper : Bool) (d : Fin 16) :
      (if upper then digitsUpper else digitsLower)[(d : Nat)]? = some (digitChar upper d) := by
    revert upper d
    decide
  exact table upper ⟨d, small⟩

/-- The second loop prints low digits and counts them. -/
theorem printDigits_eq {base : UInt64} (positive : 0 < base.toNat) (small : base.toNat ≤ 16)
    (upper : Bool) (count : Nat) (revn : UInt64) (p : Printer) :
    printDigits (if upper then digitsUpper else digitsLower) base count revn p =
      .ok ⟨p.out ++ (lowDigits base.toNat count revn.toNat).map (digitChar upper),
        p.chars + count⟩ := by
  induction count generalizing revn p with
  | zero => simp [printDigits, lowDigits]
  | succ count ih =>
    have digit : (revn % base).toNat = revn.toNat % base.toNat := UInt64.toNat_mod revn base
    have rest : (revn / base).toNat = revn.toNat / base.toNat := UInt64.toNat_div revn base
    have below := Nat.mod_lt revn.toNat positive
    rw [printDigits, digit, digits_getElem? upper (by omega)]
    dsimp only
    rw [ih, rest, lowDigits]
    simp only [Printer.count, Printer.putchar, debugPutchar, List.append_assoc, List.map_cons,
      List.singleton_append, Except.ok.injEq, Printer.mk.injEq, true_and]
    omega

/-! ## The whole function -/

/-- A 64-bit value read as a signed number. -/
theorem toInt_toInt64 (n : UInt64) :
    (n.toNat < 2 ^ 63 ∧ n.toInt64.toInt = n.toNat) ∨
      (2 ^ 63 ≤ n.toNat ∧ n.toInt64.toInt = n.toNat - 2 ^ 64) := by
  have cond := BitVec.toInt_eq_toNat_cond n.toBitVec
  have value : n.toInt64.toInt = n.toBitVec.toInt := rfl
  have word : n.toBitVec.toNat = n.toNat := rfl
  rw [value, cond, word]
  split <;> omega

/-- The code prints a minus for negative numbers. -/
theorem negative_iff (n : UInt64) (sign : Bool) :
    (decide (n.toInt64 < 0) && sign) = true ↔ signedValue n sign < 0 := by
  have zero : (0 : Int64).toInt = 0 := rfl
  rw [Bool.and_eq_true, decide_eq_true_eq, Int64.lt_iff_toInt_lt, zero, signedValue]
  cases sign with
  | true => simp
  | false => simp

/-- The number that is printed is the absolute value, unless its negation overflows. -/
theorem absolute_eq (n : UInt64) (sign : Bool) :
    absolute (decide (n.toInt64 < 0) && sign) n =
    if signedValue n sign = -2 ^ 63 then .error .undefined
    else .ok (UInt64.ofNat (signedValue n sign).natAbs) := by
  have negative := negative_iff n sign
  have cases := toInt_toInt64 n
  have bound := n.toNat_lt
  unfold absolute
  by_cases minus : signedValue n sign < 0
  · have isSigned : sign = true := by
      cases sign with
      | true => rfl
      | false => exact absurd minus (by simp [signedValue])
    rw [if_pos (negative.mpr minus)]
    subst isSigned
    have value : signedValue n true = n.toInt64.toInt := rfl
    rw [value] at minus ⊢
    have least : n.toInt64 = Int64.minValue ↔ n.toInt64.toInt = -2 ^ 63 := by
      rw [← Int64.toInt_inj, Int64.toInt_minValue]
    rw [negInt64]
    by_cases overflow : n.toInt64.toInt = -2 ^ 63
    · rw [if_pos (least.mpr overflow), if_pos overflow]
      rfl
    · rw [if_neg (mt least.mp overflow), if_neg overflow]
      change Except.ok (-n.toInt64).toUInt64 = _
      rw [Int64.toUInt64_neg, UInt64.toUInt64_toInt64]
      congr 1
      rw [← UInt64.toNat_inj, toNat_ofNat_of_fits (by omega), UInt64.toNat_neg,
        show UInt64.size = 2 ^ 64 from rfl]
      omega
  · rw [if_neg (mt negative.mp minus), if_neg (by omega)]
    congr 1
    cases sign with
    | true =>
      have value : signedValue n true = n.toInt64.toInt := rfl
      rw [value] at minus ⊢
      rw [← UInt64.toNat_inj, toNat_ofNat_of_fits (by omega)]
      omega
    | false =>
      have value : signedValue n false = n.toNat := rfl
      rw [value, Int.natAbs_natCast, UInt64.ofNat_toNat]

/-- The counter starts behind the sign. -/
theorem printSign_eq (n : UInt64) (sign : Bool) (flags : Int32) :
    printSign (decide (n.toInt64 < 0) && sign) flags ⟨[], 0⟩ =
    ⟨signChars (signedValue n sign) flags, (signChars (signedValue n sign) flags).length⟩ := by
  unfold printSign signChars
  by_cases minus : signedValue n sign < 0
  · rw [if_pos ((negative_iff n sign).mpr minus), if_pos minus]
    rfl
  · rw [if_neg (mt (negative_iff n sign).mp minus), if_neg minus]
    by_cases plus : flags &&& plusForPositive ≠ 0
    · rw [if_pos plus, if_pos plus]
      rfl
    · rw [if_neg plus, if_neg plus]
      by_cases space : flags &&& spaceForPositive ≠ 0
      · rw [if_pos space, if_pos space]
        rfl
      · rw [if_neg space, if_neg space]
        rfl

/-- The prefix of the base is printed, but not counted. -/
theorem printBase_eq (base flags : Int32) (upper : Bool) (p : Printer) :
    printBase base flags upper p = ⟨p.out ++ baseChars base flags upper, p.chars⟩ := by
  unfold printBase baseChars
  by_cases octal : base = 8 ∧ flags &&& specialHash ≠ 0
  · rw [if_pos octal, if_pos octal]
    rfl
  · rw [if_neg octal, if_neg octal]
    by_cases hex : base = 16 ∧ flags &&& specialHash ≠ 0
    · rw [if_pos hex, if_pos hex]
      simp [Printer.putchar, debugPutchar]
    · rw [if_neg hex, if_neg hex, List.append_nil]

/-- The padding in its place is printed and counted. -/
theorem printFill_eq (here : Bool) (flags : Int32) (width : Int) (digits : Nat) (p : Printer) :
    printFill here flags width digits p =
    ⟨p.out ++ (if here then fillChars width flags digits else []),
      p.chars + (if here then fillChars width flags digits else []).length⟩ := by
  unfold printFill fillChars
  by_cases place : here = true
  · by_cases wide : width - digits > 0
    · by_cases zeroes : flags &&& prependZeroes ≠ 0
      · rw [if_pos ⟨wide, place⟩, if_pos zeroes, if_pos place, if_pos zeroes, padding_eq,
          List.length_replicate]
      · rw [if_pos ⟨wide, place⟩, if_neg zeroes, if_pos place, if_neg zeroes, padding_eq,
          List.length_replicate]
    · rw [if_neg fun both => wide both.1, if_pos place,
        show (width - digits).toNat = 0 by omega, List.replicate_zero]
      simp
  · rw [if_neg fun both => place both.2, if_neg place]
    simp

/-- The bases of the callers. -/
def IsBase (base : Int32) : Prop := base = 8 ∨ base = 10 ∨ base = 16

/-- `debug_print_int` prints its value and counts all of it but the prefix of the base, unless
the negation of the least value overflows. -/
theorem debugPrintInt_eq {base : Int32} (isBase : IsBase base) (n : UInt64) (flags : Int32)
    (width : Int) (sign upper : Bool) :
    debugPrintInt n flags width base sign upper =
      if signedValue n sign = -2 ^ 63 then .error .undefined
      else .ok ⟨printedInt base flags width upper (signedValue n sign),
        (printedInt base flags width upper (signedValue n sign)).length -
          (baseChars base flags upper).length⟩ := by
  have bounds : 2 ≤ (wordOfInt base).toNat ∧ (wordOfInt base).toNat ≤ 16 ∧ ¬ base > 16 := by
    rcases isBase with rfl | rfl | rfl <;> decide
  obtain ⟨two, small, notLarge⟩ := bounds
  unfold debugPrintInt
  dsimp only
  rw [absolute_eq]
  by_cases overflow : signedValue n sign = -2 ^ 63
  · rw [if_pos overflow, if_pos overflow]
    rfl
  · have fits : (signedValue n sign).natAbs < 2 ^ 64 := by
      have cases := toInt_toInt64 n
      have bound := n.toNat_lt
      unfold signedValue
      cases sign <;> simp <;> omega
    have number : (UInt64.ofNat (signedValue n sign).natAbs).toNat = (signedValue n sign).natAbs :=
      toNat_ofNat_of_fits fits
    rw [if_neg overflow, if_neg overflow, ok_bind, if_neg notLarge,
      reverseDigits_eq two 0 0 _ (by decide) (by rw [number]; exact fits), ok_bind, number]
    dsimp only
    rw [printSign_eq, printBase_eq, printFill_eq, printDigits_eq (by omega) small, ok_bind,
      printFill_eq]
    have zero : (0 : UInt64).toNat = 0 := rfl
    simp only [zero, Nat.zero_mul, Nat.zero_add, UInt64.toNat_ofNat', decide_eq_true_eq, printedInt,
      shownDigits, Except.ok.injEq, Printer.mk.injEq, List.append_assoc, true_and, List.length_append,
      List.length_map, length_lowDigits]
    push_cast
    omega

/-! ## Canonical digits -/

/-- The character of a digit is read as the digit, and is no minus. -/
theorem digitOfChar_digitChar (upper : Bool) {d : Nat} (small : d < 16) :
    digitOfChar upper (digitChar upper d) = d ∧ digitChar upper d ≠ chr '-' := by
  have table (upper : Bool) (d : Fin 16) :
      digitOfChar upper (digitChar upper d) = d ∧ digitChar upper d ≠ chr '-' := by
    revert upper d
    decide
  exact table upper ⟨d, small⟩

/-- The characters of digits are read as the digits. -/
theorem map_digitOfChar (upper : Bool) {digits : List Nat} (small : ∀ d ∈ digits, d < 16) :
    (digits.map (digitChar upper)).map (digitOfChar upper) = digits := by
  rw [List.map_map]
  conv_rhs => rw [← List.map_id digits]
  apply List.map_congr_left
  intro d member
  exact (digitOfChar_digitChar upper (small d member)).1

/-- A representation is read back to its number. -/
theorem readBack_representation {base : Nat} (two : 2 ≤ base) (hex : base ≤ 16) (upper : Bool)
    (v : Int) : readBack base upper (representation base upper v) = v := by
  have small : ∀ d ∈ digitsOf base v.natAbs, d < 16 := by
    intro d member
    exact Nat.lt_of_lt_of_le (lt_of_mem_digitsOf two member) hex
  unfold representation
  by_cases minus : v < 0
  · rw [if_pos minus, List.singleton_append, readBack, if_pos rfl, map_digitOfChar upper small,
      valueOf_digitsOf two]
    omega
  · obtain ⟨d, rest, split⟩ := List.exists_cons_of_length_pos (digitsOf_length_pos base v.natAbs)
    have first : digitChar upper d ≠ chr '-' :=
      (digitOfChar_digitChar upper (small d (by rw [split]; exact List.mem_cons_self))).2
    have value := valueOf_digitsOf two v.natAbs
    have digits := map_digitOfChar upper small
    rw [split] at value digits ⊢
    rw [if_neg minus, List.nil_append, List.map_cons, readBack, if_neg first, ← List.map_cons, digits,
      value]
    omega

/-- Without flags and width the output is a minus and the shown digits. -/
theorem printedInt_plain (base : Int32) (upper : Bool) (v : Int) :
    printedInt base 0 0 upper v =
      (if v < 0 then [chr '-'] else []) ++ shownDigits (wordOfInt base).toNat v.natAbs upper := by
  have sign : signChars v 0 = if v < 0 then [chr '-'] else [] := by
    unfold signChars
    by_cases minus : v < 0
    · rw [if_pos minus, if_pos minus]
    · rw [if_neg minus, if_neg minus]
      rfl
  have nothing : fillChars 0 0 (digitsOf (wordOfInt base).toNat v.natAbs).length = [] := by
    rw [fillChars, show ((0 : Int) - _).toNat = 0 by omega, List.replicate_zero]
  have noPrefix : baseChars base 0 upper = [] := by
    unfold baseChars
    rw [if_neg fun both => both.2 rfl, if_neg fun both => both.2 rfl]
  simp only [printedInt, sign, nothing, noPrefix, List.append_nil, ite_self]

/-- The shown digits are those of the number exactly where the reversal fits into 64 bits. -/
theorem shownDigits_eq_iff {base : Nat} (two : 2 ≤ base) (hex : base ≤ 16) (upper : Bool) (n : Nat) :
    shownDigits base n upper = (digitsOf base n).map (digitChar upper) ↔ reversal base n < 2 ^ 64 := by
  have bound := Nat.mod_le (reversal base n) (2 ^ 64)
  rw [← Nat.mod_eq_iff_lt (by decide), ← lowDigits_eq_digitsOf two bound, shownDigits]
  constructor
  · intro same
    have read := congrArg (List.map (digitOfChar upper)) same
    rwa [map_digitOfChar, map_digitOfChar] at read
    · intro d member
      exact Nat.lt_of_lt_of_le (lt_of_mem_digitsOf two member) hex
    · intro d member
      exact Nat.lt_of_lt_of_le (lt_of_mem_lowDigits (by omega) member) hex
  · intro same
    rw [same]

/-- For every value, base, reading and letter case, `debug_print_int` without flags and width
prints the canonical representation, which is read back to the value, exactly where the
digit-reversed absolute value fits into 64 bits and the value has a negation. -/
theorem debugPrintInt_digits {base : Int32} (isBase : base = 8 ∨ base = 10 ∨ base = 16) (n : UInt64)
    (sign upper : Bool) :
    ((∃ p, debugPrintInt n 0 0 base sign upper = .ok p ∧
        p.out = representation (wordOfInt base).toNat upper (signedValue n sign) ∧
        readBack (wordOfInt base).toNat upper p.out = signedValue n sign) ↔
      reversal (wordOfInt base).toNat (signedValue n sign).natAbs < 2 ^ 64 ∧
        signedValue n sign ≠ -2 ^ 63) := by
  have bounds : 2 ≤ (wordOfInt base).toNat ∧ (wordOfInt base).toNat ≤ 16 := by
    rcases isBase with rfl | rfl | rfl <;> decide
  obtain ⟨two, hex⟩ := bounds
  have digits := shownDigits_eq_iff two hex upper (signedValue n sign).natAbs
  rw [debugPrintInt_eq isBase, printedInt_plain]
  by_cases overflow : signedValue n sign = -2 ^ 63
  · rw [if_pos overflow]
    constructor
    · intro printed
      obtain ⟨p, returned, -⟩ := printed
      cases returned
    · intro both
      exact absurd overflow both.2
  · rw [if_neg overflow]
    constructor
    · intro printed
      obtain ⟨p, returned, out, -⟩ := printed
      cases returned
      exact ⟨digits.mp (List.append_cancel_left out), overflow⟩
    · intro both
      refine ⟨_, rfl, ?_⟩
      have out := digits.mpr both.1
      dsimp only
      rw [out]
      exact ⟨rfl, readBack_representation two hex upper (signedValue n sign)⟩

/-- A negative number in base ten is printed and read back. -/
theorem debugPrintInt_digits_minus :
    ∃ p, debugPrintInt 0xffffffffffffff85 0 0 10 true false = .ok p ∧
      p.out = representation (wordOfInt 10).toNat false (signedValue 0xffffffffffffff85 true) ∧
      readBack (wordOfInt 10).toNat false p.out = signedValue 0xffffffffffffff85 true := by
  have value : (signedValue 0xffffffffffffff85 true).natAbs = 123 := by decide
  have backwards : reversal (wordOfInt 10).toNat 123 = 321 := by
    have base : (wordOfInt 10).toNat = 10 := rfl
    rw [base]
    norm_num [reversal, digitsOf, Nat.ofDigits]
  apply (debugPrintInt_digits (Or.inr (Or.inl rfl)) 0xffffffffffffff85 true false).mpr
  rw [value, backwards]
  decide

/-- The largest value in base eight is printed with its digits in another order. -/
theorem largest_octal :
    ¬ ∃ p, debugPrintInt 0xffffffffffffffff 0 0 8 false false = .ok p ∧
      p.out = representation 8 false 0xffffffffffffffff ∧
      readBack 8 false p.out = 0xffffffffffffffff := by
  have printed : passes (fun p => readBack 8 false p.out = 0o1777777777777777777771)
      (debugPrintInt 0xffffffffffffffff 0 0 8 false false) = true := by decide +kernel
  obtain ⟨p, returned, wrong⟩ := exists_of_passes printed
  intro claimed
  obtain ⟨q, same, -, right⟩ := claimed
  rw [returned] at same
  cases same
  rw [of_decide_eq_true wrong] at right
  exact absurd right (by decide)

/-- In base 16 the reversal of a 64-bit value always fits. -/
theorem reversal_hex_lt {n : Nat} (fits : n < 2 ^ 64) : reversal 16 n < 2 ^ 64 := by
  have count : (digitsOf 16 n).length ≤ 16 := by
    unfold digitsOf
    by_cases zero : n = 0
    · rw [if_pos zero]
      decide
    · rw [if_neg zero, List.length_reverse, Nat.digits_length_le_iff (by decide)]
      exact fits
  calc reversal 16 n < 16 ^ (digitsOf 16 n).length := reversal_lt (by decide) n
    _ ≤ 16 ^ 16 := Nat.pow_le_pow_right (by decide) count
    _ = 2 ^ 64 := by decide

end Symphony
