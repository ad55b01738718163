import Symphony.Kernel.Debug

/-!
# Formatted output

The printing functions of `debug.c`. A call yields the characters that it passed to
`debug_putchar`, in their order, and the `int` that it returns. The device behind
`debug_putchar` is not observed. An `int` is an integer, checked where C leaves an overflow
undefined and the values are not small anyway.
-/

namespace Symphony

/-- The byte of a character constant. -/
def chr (c : Char) : UInt8 := UInt8.ofNat c.toNat

/-- A NUL-terminated string: the characters in front of the NUL. -/
structure CString where
  /-- Characters. -/
  bytes : List UInt8
  /-- None of them is the NUL. -/
  noNul : 0 ∉ bytes
  /-- The string lies in memory. -/
  fits : bytes.length < 2 ^ 64

/-- `strlen`. -/
def strlen (s : CString) : UInt64 := UInt64.ofNat s.bytes.length

/-- `s[i]`, which is the NUL at the length and undefined beyond it. -/
def CString.get (s : CString) (i : Nat) : Except Fault UInt8 :=
  if i = s.bytes.length then .ok 0
  else match s.bytes[i]? with
    | some c => .ok c
    | none => .error .undefined

/-- Result of an `int` operation. -/
def checkInt (v : Int) : Except Fault Int :=
  if -2 ^ 31 ≤ v ∧ v < 2 ^ 31 then .ok v else .error .undefined

/-- Negation of an `intmax_t`. -/
def negInt64 (n : Int64) : Except Fault Int64 :=
  if n = Int64.minValue then .error .undefined else .ok (-n)

/-- A `char` as an `int`; the type is signed. -/
def intOfChar (c : UInt8) : Int := c.toInt8.toInt

/-! ## Flags and lengths -/

/-- `LEFT_ALIGN`. -/
def leftAlign : Int32 := 1
/-- `PLUS_FOR_POSITIVE`. -/
def plusForPositive : Int32 := (1 : Int32) <<< 1
/-- `SPACE_FOR_POSITIVE`. -/
def spaceForPositive : Int32 := (1 : Int32) <<< 2
/-- `PREPEND_ZEROES`. -/
def prependZeroes : Int32 := (1 : Int32) <<< 3
/-- `THOUSANDS_GROUPING`. -/
def thousandsGrouping : Int32 := (1 : Int32) <<< 4
/-- `SPECIAL_HASH`. -/
def specialHash : Int32 := (1 : Int32) <<< 5

/-- `LENGTH_*`, as far as they are assigned. -/
inductive Length where
  | int | long | longLong | size | intmax | ptrdiff | ptr
deriving DecidableEq

/-- `MAX_WIDTH`. -/
def maxWidth : Int := 256

/-- `IS_DIGIT`. -/
def isDigit (c : UInt8) : Bool := chr '0' ≤ c && c ≤ chr '9'

/-! ## Characters and strings -/

/-- The characters passed to `debug_putchar` and a counter beside them. -/
structure Printer where
  /-- Characters in the order of the calls. -/
  out : List UInt8
  /-- The counter. -/
  chars : Int

/-- `debug_putchar` passes its character on and returns it. -/
def debugPutchar (c : UInt8) (p : Printer) : UInt8 × Printer := (c, { p with out := p.out ++ [c] })

/-- A call of `debug_putchar` whose result is not used. -/
def Printer.putchar (p : Printer) (c : UInt8) : Printer := (debugPutchar c p).2

/-- A call of `debug_putchar` followed by `chars++`. -/
def Printer.count (p : Printer) (c : UInt8) : Printer :=
  { p.putchar c with chars := p.chars + 1 }

/-- `debug_print`. -/
def debugPrint (str : CString) : Printer :=
  { str.bytes.foldl Printer.putchar ⟨[], 0⟩ with chars := (intOfWord (strlen str)).toInt }

/-! ## Integers -/

/-- `digitsLower`. -/
def digitsLower : List UInt8 :=
  ['0', '1', '2', '3', '4', '5', '6', '7', '8', '9', 'a', 'b', 'c', 'd', 'e', 'f'].map chr ++ [0]

/-- `digitsUpper`. -/
def digitsUpper : List UInt8 :=
  ['0', '1', '2', '3', '4', '5', '6', '7', '8', '9', 'A', 'B', 'C', 'D', 'E', 'F'].map chr ++ [0]

/-- The loop that counts the digits and reverses the number. A base of at least two ends it
after at most 64 turns. -/
def reverseDigits (base : UInt64) : Nat → Nat → UInt64 → UInt64 → Except Fault (Nat × UInt64)
  | 0, _, _, _ => .error .diverges
  | fuel + 1, dcount, revn, n =>
    if base = 0 then .error .undefined
    else
      let revn := revn * base + n % base
      let n := n / base
      if n ≠ 0 then reverseDigits base fuel (dcount + 1) revn n else .ok (dcount + 1, revn)

/-- The loop that prints the digits of the reversed number. -/
def printDigits (digits : List UInt8) (base : UInt64) :
    Nat → UInt64 → Printer → Except Fault Printer
  | 0, _, p => .ok p
  | left + 1, revn, p =>
    match digits[(revn % base).toNat]? with
    | none => .error .undefined
    | some c => printDigits digits base left (revn / base) (p.count c)

/-- A padding loop. -/
def padding (c : UInt8) : Nat → Printer → Printer
  | 0, p => p
  | left + 1, p => padding c left (p.count c)

/-- The part of `debug_print_int` that negates a negative number. -/
def absolute (negative : Bool) (n : UInt64) : Except Fault UInt64 :=
  if negative then (negInt64 n.toInt64).map Int64.toUInt64 else .ok n

/-- The part of `debug_print_int` that prints the sign. -/
def printSign (negative : Bool) (flags : Int32) (p : Printer) : Printer :=
  if negative then p.count (chr '-')
  else if flags &&& plusForPositive ≠ 0 then p.count (chr '+')
  else if flags &&& spaceForPositive ≠ 0 then p.count (chr ' ')
  else p

/-- The part of `debug_print_int` that prints the prefix of the base. -/
def printBase (base flags : Int32) (upper : Bool) (p : Printer) : Printer :=
  if base = 8 ∧ flags &&& specialHash ≠ 0 then p.putchar (chr '0')
  else if base = 16 ∧ flags &&& specialHash ≠ 0 then
    (p.putchar (chr '0')).putchar (if upper then chr 'X' else chr 'x')
  else p

/-- The block of `debug_print_int` that fills up the width, which it has on both sides of the
digits. -/
def printFill (here : Bool) (flags : Int32) (width : Int) (dcount : Nat) (p : Printer) : Printer :=
  if width - dcount > 0 ∧ here then
    if flags &&& prependZeroes ≠ 0 then padding (chr '0') (width - dcount).toNat p
    else padding (chr ' ') (width - dcount).toNat p
  else p

/-- `debug_print_int`. -/
def debugPrintInt (n : UInt64) (flags : Int32) (width : Int) (base : Int32) (sign upper : Bool) :
    Except Fault Printer := do
  let negative : Bool := n.toInt64 < 0 && sign
  let n ← absolute negative n
  if base > 16 then .ok ⟨[], 0⟩
  else
    let (dcount, revn) ← reverseDigits (wordOfInt base) 64 0 0 n
    let p := printSign negative flags ⟨[], 0⟩
    let p := printBase base flags upper p
    let p := printFill (flags &&& leftAlign = 0) flags width dcount p
    let p ← printDigits (if upper then digitsUpper else digitsLower) (wordOfInt base) dcount revn p
    .ok (printFill (flags &&& leftAlign ≠ 0) flags width dcount p)

/-! ## The format string -/

/-- An argument in its 64-bit slot of the variadic list; a pointer to a string comes with the
string behind it. -/
structure VaArg where
  /-- Word in the slot. -/
  slot : UInt64
  /-- The string behind the pointer. -/
  text : Option CString

/-- `va_arg`, up to the conversion of the slot. -/
def vaArg : List VaArg → Except Fault (VaArg × List VaArg)
  | [] => .error .undefined
  | arg :: args => .ok (arg, args)

/-- The bit that a flag character sets. -/
def flagBit (c : UInt8) : Int32 :=
  if c = chr '-' then leftAlign
  else if c = chr '+' then plusForPositive
  else if c = chr ' ' then spaceForPositive
  else if c = chr '0' then prependZeroes
  else if c = 39 then thousandsGrouping
  else if c = chr '#' then specialHash
  else 0

/-- The loop over the flags; it ends with the first character that sets no new flag. -/
def parseFlags (fmt : CString) : Nat → Int32 → Nat → Except Fault (Int32 × Nat)
  | 0, _, _ => .error .diverges
  | fuel + 1, prevflags, i => do
    let c ← fmt.get (i + 1)
    let flags := prevflags ||| flagBit c
    if flags ≠ prevflags then parseFlags fmt fuel flags (i + 1) else .ok (flags, i + 1)

/-- The loop over the digits of the width. -/
def parseWidth (fmt : CString) : Nat → Int → Nat → Except Fault (Int × Nat)
  | 0, _, _ => .error .diverges
  | fuel + 1, width, i => do
    let c ← fmt.get i
    if isDigit c then
      let width ← checkInt (width * 10)
      let width ← checkInt (width + (intOfChar c - intOfChar (chr '0')))
      parseWidth fmt fuel width (i + 1)
    else .ok (width, i)

/-- The length modifier. -/
def parseLength (fmt : CString) (i : Nat) : Except Fault (Length × Nat) := do
  let c ← fmt.get i
  if c = chr 'h' then
    let next ← fmt.get (i + 1)
    .ok (.int, if next = chr 'h' then i + 2 else i + 1)
  else if c = chr 'l' then
    let next ← fmt.get (i + 1)
    if next = chr 'l' then .ok (.longLong, i + 2) else .ok (.long, i + 1)
  else if c = chr 'z' then .ok (.size, i + 1)
  else if c = chr 'j' then .ok (.intmax, i + 1)
  else if c = chr 't' then .ok (.ptrdiff, i + 1)
  else if c = chr 'p' ∨ c = chr 's' then .ok (.ptr, i)
  else .ok (.int, i)

/-- What stands between a percent sign and the conversion character, and the place of the
latter. -/
structure Conversion where
  flags : Int32
  width : Int
  length : Length
  index : Nat

/-- The part of `debug_vprintf` that parses a conversion, from the percent sign on. -/
def parseConversion (fmt : CString) (i : Nat) : Except Fault Conversion := do
  let (flags, i) ← parseFlags fmt (fmt.bytes.length + 1) 0 i
  let (width, i) ← parseWidth fmt (fmt.bytes.length + 1) 0 i
  let width := if width > maxWidth then maxWidth else width
  let (length, i) ← parseLength fmt i
  .ok ⟨flags, width, length, i⟩

/-- The part of `debug_vprintf` that fetches the value of a conversion. -/
def fetchValue (c : UInt8) (length : Length) (args : List VaArg) :
    Except Fault (VaArg × List VaArg) :=
  if c = chr 'd' ∨ c = chr 'i' then do
    let (arg, args) ← vaArg args
    if length = .int then .ok (⟨wordOfInt arg.slot.toUInt32.toInt32, none⟩, args)
    else .ok (⟨arg.slot, none⟩, args)
  else if c = chr 'u' ∨ c = chr 'x' ∨ c = chr 'X' ∨ c = chr 'o' ∨ c = chr 'c' then do
    let (arg, args) ← vaArg args
    if length = .int then .ok (⟨arg.slot.toUInt32.toUInt64, none⟩, args)
    else .ok (⟨arg.slot, none⟩, args)
  else if c = chr 'p' then vaArg args
  else if c = chr 's' then vaArg args
  else .ok (⟨0, none⟩, args)

/-- `"(null)"`. -/
def nullText : CString where
  bytes := ['(', 'n', 'u', 'l', 'l', ')'].map chr
  noNul := by decide
  fits := by decide

/-- The part of `debug_vprintf` that prints a value: the characters, and what it adds to
`chars`. -/
def printConversion (c : UInt8) (conversion : Conversion) (value : VaArg) : Except Fault Printer :=
  let printInt := debugPrintInt value.slot conversion.flags conversion.width
  if c = chr '%' then
    let (result, p) := debugPutchar (chr '%') ⟨[], 0⟩
    .ok { p with chars := intOfChar result }
  else if c = chr 'd' ∨ c = chr 'i' then printInt 10 true false
  else if c = chr 'u' then printInt 10 false false
  else if c = chr 'x' then printInt 16 false false
  else if c = chr 'X' then printInt 16 false true
  else if c = chr 'p' then printInt 16 false true
  else if c = chr 'o' then printInt 8 false false
  else if c = chr 's' then
    if value.slot = 0 then .ok (debugPrint nullText)
    else match value.text with
      | some str => .ok (debugPrint str)
      | none => .error .undefined
  else if c = chr 'c' then .ok (Printer.count ⟨[], 0⟩ value.slot.toUInt8)
  else .ok ⟨[], 0⟩

/-- Variables of the main loop of `debug_vprintf`, with the characters printed so far. -/
structure Vprintf where
  i : Nat
  args : List VaArg
  printer : Printer

/-- One turn of the main loop, with the `i++` of its head. -/
def vprintfStep (fmt : CString) (v : Vprintf) : Except Fault Vprintf := do
  let c ← fmt.get v.i
  if c ≠ chr '%' then
    let chars ← checkInt (v.printer.chars + 1)
    .ok ⟨v.i + 1, v.args, ⟨v.printer.out ++ [c], chars⟩⟩
  else
    let conversion ← parseConversion fmt v.i
    let c ← fmt.get conversion.index
    let (value, args) ← fetchValue c conversion.length v.args
    let printed ← printConversion c conversion value
    let chars ← checkInt (v.printer.chars + printed.chars)
    .ok ⟨conversion.index + 1, args, ⟨v.printer.out ++ printed.out, chars⟩⟩

/-- The main loop of `debug_vprintf`. -/
def vprintfLoop (fmt : CString) : Nat → Vprintf → Except Fault Vprintf
  | 0, v => if v.i < fmt.bytes.length then .error .diverges else .ok v
  | fuel + 1, v =>
    if v.i < fmt.bytes.length then vprintfStep fmt v >>= vprintfLoop fmt fuel else .ok v

/-- `debug_vprintf`. -/
def debugVprintf (fmt : CString) (args : List VaArg) : Except Fault Printer := do
  let v ← vprintfLoop fmt fmt.bytes.length ⟨0, args, ⟨[], 0⟩⟩
  .ok v.printer

/-- `debug_printf`. -/
def debugPrintf (fmt : CString) (args : List VaArg) : Except Fault Printer := debugVprintf fmt args

end Symphony
