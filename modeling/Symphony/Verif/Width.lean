import Symphony.Spec.Format
import Symphony.Verif.Print

/-!
# Field widths

The width is multiplied and added up in an `int` digit by digit and clamped behind the last one.
No step overflows exactly where the number of the digits fits into an `int`, for the number only
grows; the clamp comes too late for all others.
-/

namespace Symphony

/-! ## Texts behind an index -/

/-- The first character of the rest of a format is the one at its index. -/
theorem CString.get_of_rest {fmt : CString} {i : Nat} {c : UInt8} {tail : List UInt8}
    (rest : fmt.rest i = c :: tail) :
    fmt.get i = .ok c ∧ fmt.rest (i + 1) = tail ∧ i < fmt.bytes.length := by
  have below : i < fmt.bytes.length := by
    by_contra beyond
    rw [CString.rest, List.drop_eq_nil_of_le (Nat.le_of_not_lt beyond)] at rest
    cases rest
  rw [CString.rest, List.drop_eq_getElem_cons below] at rest
  obtain ⟨head, tail⟩ := List.cons.inj rest
  refine ⟨?_, tail, below⟩
  rw [CString.get, if_neg (Nat.ne_of_lt below), List.getElem?_eq_getElem below, head]

/-- The rest of a format is empty at the NUL. -/
theorem CString.get_of_rest_nil {fmt : CString} {i : Nat} (inside : i ≤ fmt.bytes.length)
    (rest : fmt.rest i = []) : fmt.get i = .ok 0 := by
  have length := List.length_drop (i := i) (l := fmt.bytes)
  rw [CString.rest] at rest
  rw [rest, List.length_nil] at length
  rw [CString.get, if_pos (by omega)]

/-- What follows a text in the rest of a format. -/
theorem CString.rest_append {fmt : CString} {i : Nat} {text tail : List UInt8}
    (rest : fmt.rest i = text ++ tail) : fmt.rest (i + text.length) = tail := by
  have dropped : fmt.rest (i + text.length) = (fmt.rest i).drop text.length :=
    List.drop_drop.symm
  rw [dropped, rest, List.drop_left]

/-! ## Digits -/

/-- The code computes the digit of a digit character. -/
theorem intOfChar_digit {c : UInt8} (digit : isDigit c = true) :
    intOfChar c - intOfChar (chr '0') = digitOfChar false c ∧ digitOfChar false c < 10 := by
  have table (d : Fin 256) (digit : isDigit (UInt8.ofNat d) = true) :
      intOfChar (UInt8.ofNat d) - intOfChar (chr '0') = digitOfChar false (UInt8.ofNat d) ∧
        digitOfChar false (UInt8.ofNat d) < 10 := by
    revert d
    decide +kernel
  have same : UInt8.ofNat c.toNat = c := UInt8.ofNat_toNat
  have all := table ⟨c.toNat, c.toNat_lt⟩
  rw [same] at all
  exact all digit

/-- Further digits. -/
def decimalFrom (v : Nat) (digits : List UInt8) : Nat :=
  (digits.map (digitOfChar false)).foldl (fun value d => value * 10 + d) v

/-- Further digits make no number smaller. -/
theorem le_decimalFrom (v : Nat) (digits : List UInt8) : v ≤ decimalFrom v digits := by
  induction digits generalizing v with
  | nil => exact Nat.le_refl v
  | cons c digits ih =>
    have rest := ih (v * 10 + digitOfChar false c)
    change v ≤ decimalFrom (v * 10 + digitOfChar false c) digits
    omega

/-- The loop over the digits computes their number, unless it is no `int`. -/
theorem parseWidth_decimal (fmt : CString) {fuel i v : Nat} (inside : i ≤ fmt.bytes.length)
    (enough : fmt.bytes.length < i + fuel) (small : v < 2 ^ 31) :
    parseWidth fmt fuel v i =
      if decimalFrom v ((fmt.rest i).takeWhile isDigit) < 2 ^ 31 then
        .ok (decimalFrom v ((fmt.rest i).takeWhile isDigit),
          i + ((fmt.rest i).takeWhile isDigit).length)
      else .error .undefined := by
  induction fuel generalizing i v with
  | zero => omega
  | succ fuel ih =>
    rw [parseWidth]
    cases rest : fmt.rest i with
    | nil =>
      rw [CString.get_of_rest_nil inside rest, ok_bind, if_neg (by decide), List.takeWhile_nil,
        show decimalFrom v [] = v from rfl, if_pos small]
      rfl
    | cons c tail =>
      obtain ⟨read, next, below⟩ := CString.get_of_rest rest
      rw [read, ok_bind]
      by_cases digit : isDigit c = true
      · obtain ⟨value, -⟩ := intOfChar_digit digit
        rw [if_pos digit, List.takeWhile_cons_of_pos digit, value]
        have further : decimalFrom v (c :: tail.takeWhile isDigit) =
            decimalFrom (v * 10 + digitOfChar false c) (tail.takeWhile isDigit) := rfl
        have grows := le_decimalFrom (v * 10 + digitOfChar false c) (tail.takeWhile isDigit)
        rw [further, List.length_cons]
        by_cases fits : v * 10 + digitOfChar false c < 2 ^ 31
        · rw [checkInt, if_pos (by omega), ok_bind, checkInt, if_pos (by omega), ok_bind]
          have later := ih (i := i + 1) below (by omega) fits
          rw [next] at later
          rw [show i + ((tail.takeWhile isDigit).length + 1) =
            i + 1 + (tail.takeWhile isDigit).length by omega, ← later]
          push_cast
          rfl
        · rw [if_neg (by omega)]
          by_cases tens : v * 10 < 2 ^ 31
          · rw [checkInt, if_pos (by omega), ok_bind, checkInt, if_neg (by omega)]
            rfl
          · rw [checkInt, if_neg (by omega)]
            rfl
      · rw [if_neg digit, List.takeWhile_cons_of_neg digit, show decimalFrom v [] = v from rfl,
          if_pos small]
        rfl

/-- The width of a conversion is the number of its digits, unless it is no `int`. -/
theorem parseWidth_value {fmt : CString} {i : Nat} (inside : i ≤ fmt.bytes.length) :
    parseWidth fmt (fmt.bytes.length + 1) 0 i =
      if decimal ((fmt.rest i).takeWhile isDigit) < 2 ^ 31 then
        .ok (decimal ((fmt.rest i).takeWhile isDigit), i + ((fmt.rest i).takeWhile isDigit).length)
      else .error .undefined :=
  parseWidth_decimal fmt (v := 0) inside (Nat.lt_add_left i (Nat.lt_succ_self _)) (by decide)

/-! ## The width of a conversion -/

/-- The characters behind the width are a length modifier, none where they are another text. -/
theorem parseLength_returns (fmt : CString) {i : Nat} (inside : i ≤ fmt.bytes.length) :
    ∃ length k, parseLength fmt i = .ok (length, k) ∧ i ≤ k ∧ k ≤ fmt.bytes.length := by
  rw [parseLength_eq]
  obtain ⟨found, returned, bounds⟩ := (readLength_guards fmt inside).result.returns
  exact ⟨found.1, found.2, returned, bounds⟩

/-- A conversion is put together from its parts. -/
theorem parseConversion_parts {fmt : CString} {i j k l : Nat} {flags : Int32} {width : Int}
    {length : Length} (foundFlags : parseFlags fmt (fmt.bytes.length + 1) 0 i = .ok (flags, j))
    (foundWidth : parseWidth fmt (fmt.bytes.length + 1) 0 j = .ok (width, k))
    (foundLength : parseLength fmt k = .ok (length, l)) :
    parseConversion fmt i =
      .ok ⟨flags, if width > maxWidth then maxWidth else width, length, l⟩ := by
  rw [parseConversion, foundFlags, ok_bind]
  dsimp only
  rw [foundWidth, ok_bind]
  dsimp only
  rw [foundLength]
  rfl

/-- For every format and every conversion in it, the digits behind the flags give their number as
the width, at most 256, exactly where the number fits into an `int`. -/
theorem parseConversion_width {fmt : CString} {i : Nat} (percent : fmt.get i = .ok (chr '%'))
    {flags : Int32} {j : Nat}
    (found : parseFlags fmt (fmt.bytes.length + 1) 0 i = .ok (flags, j)) :
    (∃ how, parseConversion fmt i = .ok how ∧
        how.width = (min 256 (decimal ((fmt.rest j).takeWhile isDigit)) : Nat)) ↔
      decimal ((fmt.rest j).takeWhile isDigit) < 2 ^ 31 := by
  have inside : i < fmt.bytes.length := by
    by_contra beyond
    rcases Nat.lt_or_eq_of_le (Nat.le_of_not_lt beyond) with later | last
    · rw [CString.get, if_neg (by omega), List.getElem?_eq_none later.le] at percent
      cases percent
    · rw [CString.get, if_pos last.symm] at percent
      exact absurd (Except.ok.inj percent) (by decide)
  have bounds := ((parseFlags_meets fmt 0 inside (by omega)).of_ok found).2
  have width := parseWidth_value bounds
  rw [parseConversion, found, ok_bind]
  dsimp only
  constructor
  · rintro ⟨how, parsed, -⟩
    obtain ⟨behind, read, -⟩ := bind_eq_ok.mp parsed
    by_contra large
    rw [width, if_neg large] at read
    cases read
  · intro small
    rw [width, if_pos small, ok_bind]
    have digits : j + ((fmt.rest j).takeWhile isDigit).length ≤ fmt.bytes.length := by
      have length := (List.takeWhile_prefix isDigit (l := fmt.rest j)).length_le
      rw [CString.rest, List.length_drop] at length
      rw [CString.rest]
      omega
    obtain ⟨length, k, returned, -⟩ := parseLength_returns fmt digits
    refine ⟨_, by rw [returned]; rfl, ?_⟩
    dsimp only
    have limit : maxWidth = 256 := rfl
    rw [limit]
    split <;> omega

/-- The format `%12d`. -/
def widthFormat : CString where
  bytes := ['%', '1', '2', 'd'].map chr
  noNul := by decide
  fits := by decide

/-- A width of two digits is the number that they show. -/
theorem parseConversion_width_twelve :
    ∃ how, parseConversion widthFormat 0 = .ok how ∧
      how.width = (min 256 (decimal ((widthFormat.rest 1).takeWhile isDigit)) : Nat) :=
  (parseConversion_width (i := 0) rfl
    (show parseFlags widthFormat (widthFormat.bytes.length + 1) 0 0 = .ok (0, 1) from rfl)).mpr
    (by decide)

/-- The format `%2147483648d`. -/
def largeWidthFormat : CString where
  bytes := ['%', '2', '1', '4', '7', '4', '8', '3', '6', '4', '8', 'd'].map chr
  noNul := by decide
  fits := by decide

/-- The tenth digit of 2^31 overflows the width in front of the clamp. -/
theorem largeWidth_overflows :
    decimal ((largeWidthFormat.rest 1).takeWhile isDigit) = 2 ^ 31 ∧
      parseConversion largeWidthFormat 0 = .error .undefined ∧
      debugVprintf largeWidthFormat [⟨7, none⟩] = .error .undefined := ⟨by decide, rfl, rfl⟩

end Symphony
