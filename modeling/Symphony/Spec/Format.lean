import Symphony.Spec.Print

/-!
# Conversion specifications

What C says of the parts of a conversion specification: the field in which a number is laid
out, the number of a width, and the types that the length modifiers name.
-/

namespace Symphony

/-! ## Fields -/

/-- How a conversion prints a number. -/
structure IntFormat where
  /-- Base of the digits. -/
  base : Int32
  /-- The number is signed. -/
  sign : Bool
  /-- The digits are capital letters. -/
  upper : Bool

/-- The integer conversions. -/
def intFormat (c : UInt8) : Option IntFormat :=
  if c = chr 'd' ∨ c = chr 'i' then some ⟨10, true, false⟩
  else if c = chr 'u' then some ⟨10, false, false⟩
  else if c = chr 'x' then some ⟨16, false, false⟩
  else if c = chr 'X' then some ⟨16, false, true⟩
  else if c = chr 'o' then some ⟨8, false, false⟩
  else none

/-- A field of C: spaces in front of the number, zeros between the prefix and the digits, or
spaces behind the digits, as many as the width needs beyond the number. The flag `-`
overrides `0`. -/
def field (sign base digits : List UInt8) (flags : Int32) (width : Int) : List UInt8 :=
  let fill := (width - (sign ++ base ++ digits).length).toNat
  if flags &&& leftAlign ≠ 0 then sign ++ base ++ digits ++ List.replicate fill (chr ' ')
  else if flags &&& prependZeroes ≠ 0 then
    sign ++ base ++ List.replicate fill (chr '0') ++ digits
  else List.replicate fill (chr ' ') ++ (sign ++ base ++ digits)

/-- The digits alone make up the number: it has neither a sign nor a prefix of its base. -/
structure Bare (f : IntFormat) (flags : Int32) (v : Int) : Prop where
  /-- No minus. -/
  nonneg : 0 ≤ v
  /-- No plus. -/
  noPlus : flags &&& plusForPositive = 0
  /-- No space. -/
  noSpace : flags &&& spaceForPositive = 0
  /-- No prefix. -/
  noBase : f.base = 10 ∨ flags &&& specialHash = 0

/-- A conversion is laid out as in C: at width zero it prints the sign, the prefix and the
digits of its value, and at its own width the field of them. -/
def LaidOut (c : UInt8) (f : IntFormat) (how : Conversion) (value : VaArg) : Prop :=
  let v := signedValue value.slot f.sign
  let sign := signChars v how.flags
  let base := baseChars f.base how.flags f.upper
  let digits := shownDigits (wordOfInt f.base).toNat v.natAbs f.upper
  ∃ p q, printConversion c how value = .ok p ∧
    printConversion c { how with width := 0 } value = .ok q ∧ q.out = sign ++ base ++ digits ∧
      p.out = field sign base digits how.flags how.width

/-! ## Parts of a specification -/

/-- The format from an index on. -/
def CString.rest (fmt : CString) (i : Nat) : List UInt8 := fmt.bytes.drop i

/-- The number of a decimal digit string. -/
def decimal (digits : List UInt8) : Nat := valueOf 10 (digits.map (digitOfChar false))

/-- The flag characters. -/
def flagChars : List UInt8 := [chr '-', chr '+', chr ' ', chr '0', 39, chr '#']

/-- The supported conversions. -/
def conversionChars : List UInt8 := ['%', 'd', 'i', 'u', 'x', 'X', 'p', 'o', 's', 'c'].map chr

/-- The length modifiers. -/
inductive Modifier where
  | none | hh | h | l | ll | z | j | t
deriving DecidableEq

/-- Characters of a modifier. -/
def Modifier.text : Modifier → List UInt8
  | none => []
  | hh => [chr 'h', chr 'h']
  | h => [chr 'h']
  | l => [chr 'l']
  | ll => [chr 'l', chr 'l']
  | z => [chr 'z']
  | j => [chr 'j']
  | t => [chr 't']

/-- A conversion specification in front of a text. -/
def specification (flags width : List UInt8) (m : Modifier) (c : UInt8) (tail : List UInt8) :
    List UInt8 :=
  chr '%' :: (flags ++ (width ++ (m.text ++ c :: tail)))

/-- The parts of a specification: flags, a width without a zero in front, which may be empty, and
a supported conversion. -/
structure IsSpecification (flags width : List UInt8) (c : UInt8) : Prop where
  /-- Flag characters. -/
  flags : ∀ x ∈ flags, x ∈ flagChars
  /-- Digits. -/
  digits : ∀ x ∈ width, isDigit x = true
  /-- A zero in front would be a flag. -/
  noZero : width.head? ≠ some (chr '0')
  /-- The conversion. -/
  conversion : c ∈ conversionChars

/-- No flag is given twice, except for zeros behind all other flags. -/
def RepeatsZerosOnly (flags : List UInt8) : Prop :=
  ∃ once zeros, once.Nodup ∧ flags = once ++ List.replicate zeros (chr '0')

/-- Width of the type that a modifier names: `int`, `char`, `short`, `long`, `long long`,
`size_t`, `intmax_t` and `ptrdiff_t`. -/
def Modifier.bits : Modifier → Nat
  | none => 32
  | hh => 8
  | h => 16
  | _ => 64

/-- The word of an argument converted to a signed or unsigned type of that width. -/
def converted (bits : Nat) (sign : Bool) (slot : UInt64) : Int :=
  if sign then Int.bmod slot.toNat (2 ^ bits) else (slot.toNat % 2 ^ bits : Nat)

/-- The number is one of a signed or unsigned type of that width. -/
def InType (bits : Nat) (sign : Bool) (v : Int) : Prop :=
  if sign then -2 ^ (bits - 1) ≤ v ∧ v < 2 ^ (bits - 1) else 0 ≤ v ∧ v < 2 ^ bits

end Symphony
