import Symphony.Verif.Field
import Symphony.Verif.Width

/-!
# Length modifiers

The parser folds `hh` and `h` into the length of an `int`, so that their arguments are fetched
as `int` and not converted any further. All other modifiers fetch the type that they name.
-/

namespace Symphony

/-! ## Parsed modifiers -/

/-- The length that the parser has for a modifier in front of an integer conversion. -/
def Modifier.length : Modifier → Length
  | none => .int
  | hh => .int
  | h => .int
  | l => .long
  | ll => .longLong
  | z => .size
  | j => .intmax
  | t => .ptrdiff

/-- The conversions `d` and `i` are signed, the other integer conversions are not. -/
theorem sign_of_intFormat {c : UInt8} {f : IntFormat} (code : intFormat c = some f) :
    f.sign = true ∧ (c = chr 'd' ∨ c = chr 'i') ∨
      f.sign = false ∧ (c = chr 'u' ∨ c = chr 'x' ∨ c = chr 'X' ∨ c = chr 'o') := by
  unfold intFormat at code
  by_cases isSigned : c = chr 'd' ∨ c = chr 'i'
  · rw [if_pos isSigned] at code
    cases code
    exact Or.inl ⟨rfl, isSigned⟩
  · rw [if_neg isSigned] at code
    by_cases isUnsigned : c = chr 'u' ∨ c = chr 'x' ∨ c = chr 'X' ∨ c = chr 'o'
    · rcases isUnsigned with rfl | rfl | rfl | rfl <;> cases code <;> exact Or.inr ⟨rfl, by simp⟩
    · simp only [not_or] at isUnsigned
      simp [isUnsigned] at code

/-- A character that starts no modifier. -/
def NoModifier (c : UInt8) : Prop :=
  c ≠ chr 'h' ∧ c ≠ chr 'l' ∧ c ≠ chr 'z' ∧ c ≠ chr 'j' ∧ c ≠ chr 't'

/-- A modifier is parsed up to the character behind it; without a modifier `p` and `s` have their
own length. -/
theorem parseLength_text {c : UInt8} (other : NoModifier c) {fmt : CString} {k : Nat} {m : Modifier}
    {tail : List UInt8} (rest : fmt.rest k = m.text ++ c :: tail) :
    parseLength fmt k = .ok (if m = .none ∧ (c = chr 'p' ∨ c = chr 's') then .ptr else m.length,
      k + m.text.length) := by
  obtain ⟨notH, notL, notZ, notJ, notT⟩ := other
  have l_ne_h : chr 'l' ≠ chr 'h' := by decide
  cases m with
  | none =>
    obtain ⟨read, -, -⟩ := CString.get_of_rest (c := c) rest
    rw [parseLength, read, ok_bind, if_neg notH, if_neg notL, if_neg notZ, if_neg notJ, if_neg notT]
    by_cases pointer : c = chr 'p' ∨ c = chr 's'
    · rw [if_pos pointer, if_pos ⟨rfl, pointer⟩]
      rfl
    · rw [if_neg pointer, if_neg fun both => pointer both.2]
      rfl
  | hh =>
    obtain ⟨read, next, -⟩ := CString.get_of_rest (c := chr 'h') rest
    obtain ⟨again, -, -⟩ := CString.get_of_rest (c := chr 'h') next
    rw [parseLength, read, ok_bind, if_pos rfl, again, ok_bind, if_pos rfl]
    rfl
  | h =>
    obtain ⟨read, next, -⟩ := CString.get_of_rest (c := chr 'h') rest
    obtain ⟨behind, -, -⟩ := CString.get_of_rest (c := c) next
    rw [parseLength, read, ok_bind, if_pos rfl, behind, ok_bind, if_neg notH]
    rfl
  | l =>
    obtain ⟨read, next, -⟩ := CString.get_of_rest (c := chr 'l') rest
    obtain ⟨behind, -, -⟩ := CString.get_of_rest (c := c) next
    rw [parseLength, read, ok_bind, if_neg l_ne_h, if_pos rfl, behind, ok_bind, if_neg notL]
    rfl
  | ll =>
    obtain ⟨read, next, -⟩ := CString.get_of_rest (c := chr 'l') rest
    obtain ⟨again, -, -⟩ := CString.get_of_rest (c := chr 'l') next
    rw [parseLength, read, ok_bind, if_neg l_ne_h, if_pos rfl, again, ok_bind, if_pos rfl]
    rfl
  | z =>
    obtain ⟨read, -, -⟩ := CString.get_of_rest (c := chr 'z') rest
    rw [parseLength, read]
    rfl
  | j =>
    obtain ⟨read, -, -⟩ := CString.get_of_rest (c := chr 'j') rest
    rw [parseLength, read]
    rfl
  | t =>
    obtain ⟨read, -, -⟩ := CString.get_of_rest (c := chr 't') rest
    rw [parseLength, read]
    rfl

/-- A modifier in front of an integer conversion is parsed. -/
theorem parseLength_modifier {c : UInt8} {f : IntFormat} (code : intFormat c = some f)
    {fmt : CString} {k : Nat} {m : Modifier} {tail : List UInt8}
    (rest : fmt.rest k = m.text ++ c :: tail) :
    parseLength fmt k = .ok (m.length, k + m.text.length) := by
  have other : NoModifier c ∧ ¬ (c = chr 'p' ∨ c = chr 's') := by
    unfold NoModifier
    rcases sign_of_intFormat code with ⟨-, rfl | rfl⟩ | ⟨-, rfl | rfl | rfl | rfl⟩ <;> decide
  rw [parseLength_text other.1 rest, if_neg fun both => other.2 both.2]

/-! ## Fetched values -/

/-- Width of the type that the code fetches. -/
def Length.bits (length : Length) : Nat := if length = .int then 32 else 64

/-- The low half of a slot, read as an `int`. -/
theorem toInt_intOfSlot (slot : UInt64) :
    (wordOfInt slot.toUInt32.toInt32).toInt64.toInt = Int.bmod slot.toNat (2 ^ 32) :=
  (Int32.toInt_toInt64 _).trans (toInt_intOfWord slot)

/-- A slot read as a signed number. -/
theorem toInt_slot (slot : UInt64) : slot.toInt64.toInt = Int.bmod slot.toNat (2 ^ 64) :=
  BitVec.toInt_eq_toNat_bmod slot.toBitVec

/-- The low half of a slot, read as an `unsigned int`. -/
theorem toNat_unsignedOfSlot (slot : UInt64) :
    slot.toUInt32.toUInt64.toNat = slot.toNat % 2 ^ 32 := by
  rw [UInt32.toNat_toUInt64, UInt64.toNat_toUInt32]

/-- Conversion to a signed type. -/
theorem converted_signed (bits : Nat) (slot : UInt64) :
    converted bits true slot = Int.bmod slot.toNat (2 ^ bits) := if_pos rfl

/-- Conversion to an unsigned type. -/
theorem converted_unsigned (bits : Nat) (slot : UInt64) :
    converted bits false slot = (slot.toNat % 2 ^ bits : Nat) := if_neg Bool.false_ne_true

/-- The code fetches a value of its type. -/
theorem fetchValue_int {c : UInt8} {f : IntFormat} (code : intFormat c = some f) (length : Length)
    (arg : VaArg) (args : List VaArg) :
    ∃ value, fetchValue c length (arg :: args) = .ok (value, args) ∧
      signedValue value.slot f.sign = converted length.bits f.sign arg.slot := by
  rcases sign_of_intFormat code with ⟨isSigned, conversion⟩ | ⟨isUnsigned, conversion⟩
  · have value (n : UInt64) : signedValue n true = n.toInt64.toInt := rfl
    simp only [fetchValue, if_pos conversion, isSigned, Length.bits, converted_signed, value]
    by_cases isInt : length = .int
    · rw [if_pos isInt, ← toInt_intOfSlot]
      refine ⟨⟨wordOfInt arg.slot.toUInt32.toInt32, none⟩, ?_, rfl⟩
      rw [isInt]
      rfl
    · rw [if_neg isInt, ← toInt_slot]
      refine ⟨⟨arg.slot, none⟩, ?_, rfl⟩
      change (if length = .int then _ else _) = _
      rw [if_neg isInt]
  · have notSigned : ¬ (c = chr 'd' ∨ c = chr 'i') := by
      rcases conversion with rfl | rfl | rfl | rfl <;> decide
    have listed : c = chr 'u' ∨ c = chr 'x' ∨ c = chr 'X' ∨ c = chr 'o' ∨ c = chr 'c' := by
      rcases conversion with same | same | same | same <;> simp [same]
    have value (n : UInt64) : signedValue n false = n.toNat := rfl
    simp only [fetchValue, if_neg notSigned, if_pos listed, isUnsigned, Length.bits,
      converted_unsigned, value]
    by_cases isInt : length = .int
    · rw [if_pos isInt, ← toNat_unsignedOfSlot]
      refine ⟨⟨arg.slot.toUInt32.toUInt64, none⟩, ?_, rfl⟩
      rw [isInt]
      rfl
    · rw [if_neg isInt, Nat.mod_eq_of_lt arg.slot.toNat_lt]
      refine ⟨⟨arg.slot, none⟩, ?_, rfl⟩
      change (if length = .int then _ else _) = _
      rw [if_neg isInt]

/-! ## Narrow types -/

/-- A number fetched as `int` is its conversion to a narrower type where it is a number of that
type. -/
theorem converted_eq_iff {m : Modifier} (sign : Bool) (slot : UInt64) :
    converted m.length.bits sign slot = converted m.bits sign slot ↔
      (m = .hh ∨ m = .h → InType m.bits sign (converted 32 sign slot)) := by
  have narrow {bits : Nat} (small : bits = 8 ∨ bits = 16) :
      converted 32 sign slot = converted bits sign slot ↔ InType bits sign (converted 32 sign slot) := by
    unfold converted InType
    cases sign with
    | true =>
      simp only [if_true, Int.bmod_def]
      rcases small with rfl | rfl <;> (push_cast; omega)
    | false =>
      simp only [Bool.false_eq_true, if_false]
      rcases small with rfl | rfl <;> (push_cast; omega)
  cases m with
  | hh => simpa [Modifier.length, Length.bits, Modifier.bits] using narrow (Or.inl rfl)
  | h => simpa [Modifier.length, Length.bits, Modifier.bits] using narrow (Or.inr rfl)
  | none => simp [Modifier.length, Length.bits, Modifier.bits]
  | l => simp [Modifier.length, Length.bits, Modifier.bits]
  | ll => simp [Modifier.length, Length.bits, Modifier.bits]
  | z => simp [Modifier.length, Length.bits, Modifier.bits]
  | j => simp [Modifier.length, Length.bits, Modifier.bits]
  | t => simp [Modifier.length, Length.bits, Modifier.bits]

/-- For every integer conversion, modifier and argument, the conversion prints the argument
converted to the type that they name exactly where the modifier is not `hh` or `h`, or the
argument as an `int` or `unsigned int` is a number of that type. -/
theorem pieceAt_converted {c : UInt8} {f : IntFormat} (code : intFormat c = some f) {fmt : CString}
    {i : Nat} (percent : fmt.get i = .ok (chr '%')) {flags : Int32} {j : Nat}
    (foundFlags : parseFlags fmt (fmt.bytes.length + 1) 0 i = .ok (flags, j)) {width : Int} {k : Nat}
    (foundWidth : parseWidth fmt (fmt.bytes.length + 1) 0 j = .ok (width, k)) {m : Modifier}
    {tail : List UInt8} (rest : fmt.rest k = m.text ++ c :: tail) (arg : VaArg) (args : List VaArg) :
    (∃ how value, pieceAt fmt i (arg :: args) =
          .ok (.conversion c how value, k + m.text.length + 1, args) ∧
        printConversion c how value =
          debugPrintInt value.slot how.flags how.width f.base f.sign f.upper ∧
        signedValue value.slot f.sign = converted m.bits f.sign arg.slot) ↔
      (m = .hh ∨ m = .h → InType m.bits f.sign (converted 32 f.sign arg.slot)) := by
  obtain ⟨value, fetched, number⟩ := fetchValue_int code m.length arg args
  obtain ⟨read, -, -⟩ := CString.get_of_rest (fmt.rest_append rest)
  have parsed := parseConversion_parts foundFlags foundWidth (parseLength_modifier code rest)
  have piece : pieceAt fmt i (arg :: args) = .ok (.conversion c
      ⟨flags, if width > maxWidth then maxWidth else width, m.length, k + m.text.length⟩ value,
      k + m.text.length + 1, args) := by
    rw [pieceAt, percent, ok_bind, if_neg (not_not.mpr rfl), parsed, ok_bind, read, ok_bind, fetched]
    rfl
  rw [← converted_eq_iff, ← number, piece]
  constructor
  · rintro ⟨how, other, same, -, isConverted⟩
    cases same
    exact isConverted
  · intro isConverted
    exact ⟨_, value, rfl, (printConversion_int code _ value).2, isConverted⟩

/-- The format `%hhd`. -/
def signedCharFormat : CString where
  bytes := ['%', 'h', 'h', 'd'].map chr
  noNul := by decide
  fits := by decide

/-- A negative `signed char` is fetched as it is. -/
theorem pieceAt_converted_char :
    ∃ how value, pieceAt signedCharFormat 0 [⟨0xfffffffb, none⟩] =
        .ok (.conversion (chr 'd') how value, 4, []) ∧
      printConversion (chr 'd') how value =
        debugPrintInt value.slot how.flags how.width 10 true false ∧
      signedValue value.slot true = converted 8 true 0xfffffffb :=
  (pieceAt_converted (m := .hh) (c := chr 'd') (f := ⟨10, true, false⟩) rfl (i := 0) rfl
    (show parseFlags signedCharFormat (signedCharFormat.bytes.length + 1) 0 0 = .ok (0, 1) from rfl)
    (show parseWidth signedCharFormat (signedCharFormat.bytes.length + 1) 0 1 = .ok (0, 1) from rfl)
    (show signedCharFormat.rest 1 = Modifier.hh.text ++ chr 'd' :: [] from rfl)
    ⟨0xfffffffb, none⟩ []).mpr fun _ => ⟨by decide, by decide⟩

/-- The format `%hhx`. -/
def unsignedCharFormat : CString where
  bytes := ['%', 'h', 'h', 'x'].map chr
  noNul := by decide
  fits := by decide

/-- The `signed char` -1, which is passed as an `int`, is not converted to the `unsigned char`
255. -/
theorem unsignedChar_unconverted :
    (∃ p, debugVprintf unsignedCharFormat [⟨0xffffffff, none⟩] = .ok p ∧
      p.out = List.replicate 8 (chr 'f')) ∧
    (∃ how value, pieceAt unsignedCharFormat 0 [⟨0xffffffff, none⟩] =
        .ok (.conversion (chr 'x') how value, 4, []) ∧
      signedValue value.slot false = 0xffffffff) ∧
    converted 8 false 0xffffffff = 0xff := ⟨⟨_, rfl, rfl⟩, ⟨_, _, rfl, rfl⟩, rfl⟩

end Symphony
