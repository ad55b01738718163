import Symphony.Library.Recorded
import Symphony.Kernel.Print

/-!
# The reads of the format parser

`debug_vprintf` once more, with every index at which it reads its format recorded. The control
of the parser depends on the format alone, so that the effects of a turn are left open: what an
`int` holds after an operation, an overflow included, and what the arguments and the output are
after a character or a conversion, whatever it fetches and prints.
-/

namespace Symphony

/-- Effects that do not read the format. -/
structure Effects (τ : Type) where
  /-- What an `int` holds after an operation with that result. -/
  int : Int → Int
  /-- A character is passed on. -/
  literal : UInt8 → τ → τ
  /-- The value of a conversion is fetched and printed. -/
  conversion : UInt8 → Conversion → τ → τ

/-- `fmt[i]`; a character that is read several times in a row is recorded once. -/
def CString.read (fmt : CString) (i : Nat) : Recorded Nat Fault UInt8 := ⟨fmt.get i, [i]⟩

/-- A run whose fuel is gone. -/
def outOfFuel {α : Type} : Recorded Nat Fault α := ⟨.error .diverges, []⟩

/-- The loop over the flags. -/
def readFlags (fmt : CString) : Nat → Int32 → Nat → Recorded Nat Fault (Int32 × Nat)
  | 0, _, _ => outOfFuel
  | fuel + 1, prevflags, i => do
    let c ← fmt.read (i + 1)
    let flags := prevflags ||| flagBit c
    if flags ≠ prevflags then readFlags fmt fuel flags (i + 1) else pure (flags, i + 1)

/-- The loop over the digits of the width. -/
def readWidth (int : Int → Int) (fmt : CString) : Nat → Int → Nat → Recorded Nat Fault (Int × Nat)
  | 0, _, _ => outOfFuel
  | fuel + 1, width, i => do
    let c ← fmt.read i
    if isDigit c then
      readWidth int fmt fuel (int (int (width * 10) + (intOfChar c - intOfChar (chr '0')))) (i + 1)
    else pure (width, i)

/-- The length modifier. -/
def readLength (fmt : CString) (i : Nat) : Recorded Nat Fault (Length × Nat) := do
  let c ← fmt.read i
  if c = chr 'h' then
    let next ← fmt.read (i + 1)
    pure (.int, if next = chr 'h' then i + 2 else i + 1)
  else if c = chr 'l' then
    let next ← fmt.read (i + 1)
    pure (if next = chr 'l' then (.longLong, i + 2) else (.long, i + 1))
  else if c = chr 'z' then pure (.size, i + 1)
  else if c = chr 'j' then pure (.intmax, i + 1)
  else if c = chr 't' then pure (.ptrdiff, i + 1)
  else if c = chr 'p' ∨ c = chr 's' then pure (.ptr, i)
  else pure (.int, i)

/-- The part of `debug_vprintf` that parses a conversion, from the percent sign on. -/
def readConversion (int : Int → Int) (fmt : CString) (i : Nat) : Recorded Nat Fault Conversion := do
  let (flags, i) ← readFlags fmt (fmt.bytes.length + 1) 0 i
  let (width, i) ← readWidth int fmt (fmt.bytes.length + 1) 0 i
  let width := if width > maxWidth then maxWidth else width
  let (length, i) ← readLength fmt i
  pure ⟨flags, width, length, i⟩

variable {τ : Type}

/-- One turn of the main loop, with the `i++` of its head: the index and the state behind it. -/
def readTurn (effects : Effects τ) (fmt : CString) (i : Nat) (t : τ) : Recorded Nat Fault (Nat × τ) := do
  let c ← fmt.read i
  if c ≠ chr '%' then pure (i + 1, effects.literal c t)
  else
    let conversion ← readConversion effects.int fmt i
    let c ← fmt.read conversion.index
    pure (conversion.index + 1, effects.conversion c conversion t)

/-- The main loop. -/
def readLoop (effects : Effects τ) (fmt : CString) : Nat → Nat × τ → Recorded Nat Fault (Nat × τ)
  | 0, (i, t) => if i < fmt.bytes.length then outOfFuel else pure (i, t)
  | fuel + 1, (i, t) =>
    if i < fmt.bytes.length then readTurn effects fmt i t >>= readLoop effects fmt fuel
    else pure (i, t)

/-- `debug_vprintf` with its reads. -/
def readVprintf (effects : Effects τ) (fmt : CString) (t : τ) : Recorded Nat Fault (Nat × τ) :=
  readLoop effects fmt fmt.bytes.length (0, t)

end Symphony
