import Symphony.Kernel.Print
import Symphony.Library.Digits

/-!
# Printed integers

The parts of a printed integer as functions of its value and its flags, and the canonical
representation of a number, which is read back to the number.
-/

namespace Symphony

/-- The integer that a 64-bit value denotes. -/
def signedValue (n : UInt64) (sign : Bool) : Int := if sign then n.toInt64.toInt else n.toNat

/-- Character of a digit. -/
def digitChar (upper : Bool) (d : Nat) : UInt8 :=
  (if upper then digitsUpper else digitsLower).getD d 0

/-- A minus for a negative number, and the digits of its absolute value. -/
def representation (base : Nat) (upper : Bool) (v : Int) : List UInt8 :=
  (if v < 0 then [chr '-'] else []) ++ (digitsOf base v.natAbs).map (digitChar upper)

/-- Digit of a character. -/
def digitOfChar (upper : Bool) (c : UInt8) : Nat :=
  (if upper then digitsUpper else digitsLower).idxOf c

/-- The number that is read from a representation. -/
def readBack (base : Nat) (upper : Bool) (text : List UInt8) : Int :=
  match text with
  | [] => 0
  | c :: rest =>
    if c = chr '-' then -(valueOf base (rest.map (digitOfChar upper)) : Int)
    else valueOf base (text.map (digitOfChar upper))

/-- The sign in front of a number. -/
def signChars (v : Int) (flags : Int32) : List UInt8 :=
  if v < 0 then [chr '-']
  else if flags &&& plusForPositive ≠ 0 then [chr '+']
  else if flags &&& spaceForPositive ≠ 0 then [chr ' ']
  else []

/-- The prefix of the base. -/
def baseChars (base : Int32) (flags : Int32) (upper : Bool) : List UInt8 :=
  if base = 8 ∧ flags &&& specialHash ≠ 0 then [chr '0']
  else if base = 16 ∧ flags &&& specialHash ≠ 0 then
    [chr '0', if upper then chr 'X' else chr 'x']
  else []

/-- The digits that are printed: those of the reversed number in 64 bits, from the lowest. -/
def shownDigits (base n : Nat) (upper : Bool) : List UInt8 :=
  (lowDigits base (digitsOf base n).length (reversal base n % 2 ^ 64)).map (digitChar upper)

/-- The characters that fill up the width behind that many digits. -/
def fillChars (width : Int) (flags : Int32) (digits : Nat) : List UInt8 :=
  List.replicate (width - digits).toNat
    (if flags &&& prependZeroes ≠ 0 then chr '0' else chr ' ')

/-- What `debug_print_int` prints. -/
def printedInt (base : Int32) (flags : Int32) (width : Int) (upper : Bool) (v : Int) : List UInt8 :=
  let b := (wordOfInt base).toNat
  let fill := fillChars width flags (digitsOf b v.natAbs).length
  signChars v flags ++ baseChars base flags upper ++
    (if flags &&& leftAlign = 0 then fill else []) ++ shownDigits b v.natAbs upper ++
    if flags &&& leftAlign ≠ 0 then fill else []

/-! ## Formats -/

/-- What one turn of the main loop of `debug_vprintf` prints: a character of the format, or a
conversion with its value. -/
inductive Piece where
  | literal (c : UInt8)
  | conversion (c : UInt8) (how : Conversion) (value : VaArg)

/-- The piece at an index, with the index and the arguments behind it. -/
def pieceAt (fmt : CString) (i : Nat) (args : List VaArg) :
    Except Fault (Piece × Nat × List VaArg) := do
  let c ← fmt.get i
  if c ≠ chr '%' then .ok (.literal c, i + 1, args)
  else
    let how ← parseConversion fmt i
    let c ← fmt.get how.index
    let (value, args) ← fetchValue c how.length args
    .ok (.conversion c how value, how.index + 1, args)

/-- The pieces from an index on. -/
def piecesFrom (fmt : CString) : Nat → Nat → List VaArg → Except Fault (List Piece)
  | 0, i, _ => if i < fmt.bytes.length then .error .diverges else .ok []
  | fuel + 1, i, args =>
    if i < fmt.bytes.length then do
      let (piece, i, args) ← pieceAt fmt i args
      let rest ← piecesFrom fmt fuel i args
      .ok (piece :: rest)
    else .ok []

/-- The pieces of a format and its arguments. They are undefined where a width does not fit into
an `int`, and where an argument is missing. -/
def pieces (fmt : CString) (args : List VaArg) : Except Fault (List Piece) :=
  piecesFrom fmt fmt.bytes.length 0 args

/-- Characters of a piece. -/
def Piece.text : Piece → List UInt8
  | .literal c => [c]
  | .conversion c how value =>
    if c = chr '%' then [chr '%']
    else if c = chr 'd' ∨ c = chr 'i' then
      printedInt 10 how.flags how.width false (signedValue value.slot true)
    else if c = chr 'u' then printedInt 10 how.flags how.width false (signedValue value.slot false)
    else if c = chr 'x' then printedInt 16 how.flags how.width false (signedValue value.slot false)
    else if c = chr 'X' ∨ c = chr 'p' then
      printedInt 16 how.flags how.width true (signedValue value.slot false)
    else if c = chr 'o' then printedInt 8 how.flags how.width false (signedValue value.slot false)
    else if c = chr 's' then
      if value.slot = 0 then nullText.bytes else (value.text.map CString.bytes).getD []
    else if c = chr 'c' then [value.slot.toUInt8]
    else []

/-- A string has its characters behind the pointer, and a signed number has a negation. -/
def Piece.Defined : Piece → Prop
  | .literal _ => True
  | .conversion c _ value =>
    (c = chr 's' → value.slot = 0 ∨ value.text.isSome) ∧
      (c = chr 'd' ∨ c = chr 'i' → signedValue value.slot true ≠ -2 ^ 63)

/-- What a piece adds to the counter beyond its characters: a percent sign is counted as 37
characters, and the prefix of a base not at all. -/
def Piece.excess : Piece → Int
  | .literal _ => 0
  | .conversion c how _ =>
    if c = chr '%' then 36
    else if how.flags &&& specialHash = 0 then 0
    else if c = chr 'o' then -1
    else if c = chr 'x' ∨ c = chr 'X' ∨ c = chr 'p' then -2
    else 0

/-- Characters of some pieces. -/
def textOf (ps : List Piece) : List UInt8 := ps.flatMap Piece.text

/-- What some pieces add to the counter beyond their characters. -/
def excessOf (ps : List Piece) : Int := (ps.map Piece.excess).sum

/-- The pieces that are counted right: each is defined, the counter stays an `int`, and the
percent signs counted too often balance the prefixes not counted. -/
structure Counted (ps : List Piece) : Prop where
  /-- Each piece is defined. -/
  defined : ∀ piece ∈ ps, piece.Defined
  /-- The counter stays an `int` behind each piece. -/
  inRange : ∀ before, before <+: ps → (textOf before).length + excessOf before < 2 ^ 31
  /-- The excess is zero. -/
  balanced : excessOf ps = 0

end Symphony
