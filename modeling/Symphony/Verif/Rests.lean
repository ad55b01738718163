import Symphony.Verif.Modifier
import Symphony.Verif.Parser

/-!
# Runs on the rest of a format

What `debug_vprintf` does from an index on depends on the rest of the format there and on nothing
in front of it, so that two formats with one rest are parsed and printed alike.
-/

namespace Symphony

variable {fmt other : CString} {i k : Nat}

/-- Two formats go on alike behind two indices. -/
structure SameRest (fmt other : CString) (i k : Nat) : Prop where
  /-- The first index lies in its format. -/
  inside : i ≤ fmt.bytes.length
  /-- The second index lies in its format. -/
  otherInside : k ≤ other.bytes.length
  /-- The rests are equal. -/
  rest : fmt.rest i = other.rest k

namespace SameRest

/-- The next characters are equal. -/
theorem get (same : SameRest fmt other i k) : fmt.get i = other.get k := by
  have rests := same.rest
  cases rest : fmt.rest i with
  | nil =>
    rw [rest] at rests
    rw [CString.get_of_rest_nil same.inside rest, CString.get_of_rest_nil same.otherInside rests.symm]
  | cons c tail =>
    rw [rest] at rests
    rw [(CString.get_of_rest rest).1, (CString.get_of_rest rests.symm).1]

/-- Behind a character other than the NUL the formats go on alike. -/
theorem next (same : SameRest fmt other i k) {c : UInt8} (read : fmt.get i = .ok c)
    (nonzero : c ≠ 0) : SameRest fmt other (i + 1) (k + 1) := by
  have rests := same.rest
  cases rest : fmt.rest i with
  | nil =>
    rw [CString.get_of_rest_nil same.inside rest] at read
    exact absurd (Except.ok.inj read).symm nonzero
  | cons d tail =>
    rw [rest] at rests
    obtain ⟨-, next, inside⟩ := CString.get_of_rest rest
    obtain ⟨-, otherNext, otherInside⟩ := CString.get_of_rest rests.symm
    exact ⟨inside, otherInside, next.trans otherNext.symm⟩

end SameRest

/-- Two parts of a specification were found alike: the values are equal, and so are the rests. -/
def FoundAlike {α : Type} (fmt other : CString) (found otherFound : Except Fault (α × Nat)) : Prop :=
  ∃ a i k, found = .ok (a, i) ∧ otherFound = .ok (a, k) ∧ SameRest fmt other i k

/-- The flags are found alike. -/
theorem parseFlags_alike {fuel otherFuel : Nat} (prevflags : Int32)
    (same : SameRest fmt other (i + 1) (k + 1)) (enough : fmt.bytes.length ≤ i + fuel)
    (otherEnough : other.bytes.length ≤ k + otherFuel) :
    FoundAlike fmt other (parseFlags fmt fuel prevflags i) (parseFlags other otherFuel prevflags k) := by
  induction fuel generalizing i k otherFuel prevflags with
  | zero =>
    have := same.inside
    omega
  | succ fuel ih =>
    cases otherFuel with
    | zero =>
      have := same.otherInside
      omega
    | succ otherFuel =>
      obtain ⟨c, read, -⟩ := fmt.get_of_le same.inside
      rw [parseFlags, parseFlags, ← same.get, read, ok_bind, ok_bind]
      dsimp only
      by_cases more : prevflags ||| flagBit c ≠ prevflags
      · rw [if_pos more, if_pos more]
        have nonzero : c ≠ 0 := by
          intro zero
          apply more
          rw [zero]
          exact Int32.or_zero
        exact ih _ (same.next read nonzero) (by omega) (by omega)
      · rw [if_neg more, if_neg more]
        exact ⟨_, i + 1, k + 1, rfl, rfl, same⟩

/-- Both widths are found alike, or neither is an `int`. -/
def WidthAlike (fmt other : CString) (i k : Nat) : Prop :=
  FoundAlike fmt other (parseWidth fmt (fmt.bytes.length + 1) 0 i)
    (parseWidth other (other.bytes.length + 1) 0 k) ∨
  parseWidth fmt (fmt.bytes.length + 1) 0 i = .error .undefined ∧
    parseWidth other (other.bytes.length + 1) 0 k = .error .undefined

/-- Behind the digits the rest goes on, inside the format. -/
theorem CString.rest_digits {fmt : CString} {i : Nat} (inside : i ≤ fmt.bytes.length) :
    fmt.rest (i + ((fmt.rest i).takeWhile isDigit).length) = (fmt.rest i).dropWhile isDigit ∧
      i + ((fmt.rest i).takeWhile isDigit).length ≤ fmt.bytes.length := by
  have digits := List.takeWhile_append_dropWhile (p := isDigit) (l := fmt.rest i)
  have count := (List.takeWhile_prefix isDigit (l := fmt.rest i)).length_le
  have total : (fmt.rest i).length = fmt.bytes.length - i := List.length_drop
  exact ⟨fmt.rest_append digits.symm, by omega⟩

/-- Widths with one value in front of one rest are found alike. -/
theorem widthAlike_of_value (inside : i ≤ fmt.bytes.length) (otherInside : k ≤ other.bytes.length)
    (value : decimal ((fmt.rest i).takeWhile isDigit) = decimal ((other.rest k).takeWhile isDigit))
    (behind : (fmt.rest i).dropWhile isDigit = (other.rest k).dropWhile isDigit) :
    WidthAlike fmt other i k := by
  rw [WidthAlike, parseWidth_value inside, parseWidth_value otherInside, ← value]
  by_cases fits : decimal ((fmt.rest i).takeWhile isDigit) < 2 ^ 31
  · rw [if_pos fits, if_pos fits]
    obtain ⟨rest, within⟩ := CString.rest_digits inside
    obtain ⟨otherRest, otherWithin⟩ := CString.rest_digits otherInside
    exact Or.inl ⟨_, _, _, rfl, rfl, within, otherWithin, (rest.trans behind).trans otherRest.symm⟩
  · rw [if_neg fits, if_neg fits]
    exact Or.inr ⟨rfl, rfl⟩

/-- The lengths are found alike. -/
theorem parseLength_alike (same : SameRest fmt other i k) :
    FoundAlike fmt other (parseLength fmt i) (parseLength other k) := by
  obtain ⟨c, read, -⟩ := fmt.get_of_le same.inside
  rw [parseLength, parseLength, ← same.get, read, ok_bind, ok_bind]
  have character (x : Char) (nonzero : chr x ≠ 0) (is : c = chr x) :
      SameRest fmt other (i + 1) (k + 1) :=
    same.next read (by rw [is]; exact nonzero)
  by_cases isShort : c = chr 'h'
  · have here := character 'h' (by decide) isShort
    obtain ⟨d, readNext, -⟩ := fmt.get_of_le here.inside
    rw [if_pos isShort, if_pos isShort, ← here.get, readNext, ok_bind, ok_bind]
    by_cases again : d = chr 'h'
    · rw [if_pos again, if_pos again]
      exact ⟨_, _, _, rfl, rfl, here.next readNext (by rw [again]; decide)⟩
    · rw [if_neg again, if_neg again]
      exact ⟨_, _, _, rfl, rfl, here⟩
  rw [if_neg isShort, if_neg isShort]
  by_cases isLong : c = chr 'l'
  · have here := character 'l' (by decide) isLong
    obtain ⟨d, readNext, -⟩ := fmt.get_of_le here.inside
    rw [if_pos isLong, if_pos isLong, ← here.get, readNext, ok_bind, ok_bind]
    by_cases again : d = chr 'l'
    · rw [if_pos again, if_pos again]
      exact ⟨_, _, _, rfl, rfl, here.next readNext (by rw [again]; decide)⟩
    · rw [if_neg again, if_neg again]
      exact ⟨_, _, _, rfl, rfl, here⟩
  rw [if_neg isLong, if_neg isLong]
  by_cases size : c = chr 'z'
  · rw [if_pos size, if_pos size]
    exact ⟨_, _, _, rfl, rfl, character 'z' (by decide) size⟩
  rw [if_neg size, if_neg size]
  by_cases intmax : c = chr 'j'
  · rw [if_pos intmax, if_pos intmax]
    exact ⟨_, _, _, rfl, rfl, character 'j' (by decide) intmax⟩
  rw [if_neg intmax, if_neg intmax]
  by_cases ptrdiff : c = chr 't'
  · rw [if_pos ptrdiff, if_pos ptrdiff]
    exact ⟨_, _, _, rfl, rfl, character 't' (by decide) ptrdiff⟩
  rw [if_neg ptrdiff, if_neg ptrdiff]
  by_cases pointer : c = chr 'p' ∨ c = chr 's'
  · rw [if_pos pointer, if_pos pointer]
    exact ⟨_, _, _, rfl, rfl, same⟩
  · rw [if_neg pointer, if_neg pointer]
    exact ⟨_, _, _, rfl, rfl, same⟩

/-! ## Turns -/

/-- Two conversions differ in their places at most, and their formats go on alike there. -/
structure Conversion.Alike (fmt other : CString) (how otherHow : Conversion) : Prop where
  /-- Equal flags. -/
  flags : how.flags = otherHow.flags
  /-- Equal widths. -/
  width : how.width = otherHow.width
  /-- Equal lengths. -/
  length : how.length = otherHow.length
  /-- The rests from the conversion characters on. -/
  rest : SameRest fmt other how.index otherHow.index

/-- Two conversions are parsed alike, or their widths are no `int`. -/
def ParsedAlike (fmt other : CString) (i k : Nat) : Prop :=
  (∃ how otherHow, parseConversion fmt i = .ok how ∧ parseConversion other k = .ok otherHow ∧
    how.Alike fmt other otherHow) ∨
  parseConversion fmt i = .error .undefined ∧ parseConversion other k = .error .undefined

/-- Conversions with equal flags and widths that are found alike are parsed alike. -/
theorem parsedAlike_of_width {flags : Int32} {j l : Nat}
    (found : parseFlags fmt (fmt.bytes.length + 1) 0 i = .ok (flags, j))
    (otherFound : parseFlags other (other.bytes.length + 1) 0 k = .ok (flags, l))
    (width : WidthAlike fmt other j l) : ParsedAlike fmt other i k := by
  rcases width with alike | ⟨overflow, otherOverflow⟩
  · obtain ⟨width, i₂, k₂, foundWidth, otherWidth, same⟩ := alike
    obtain ⟨length, i₃, k₃, foundLength, otherLength, same⟩ := parseLength_alike same
    exact Or.inl ⟨_, _, parseConversion_parts found foundWidth foundLength,
      parseConversion_parts otherFound otherWidth otherLength, rfl, rfl, rfl, same⟩
  · refine Or.inr ⟨?_, ?_⟩
    · rw [parseConversion, found, ok_bind]
      dsimp only
      rw [overflow]
      rfl
    · rw [parseConversion, otherFound, ok_bind]
      dsimp only
      rw [otherOverflow]
      rfl

/-- Conversions on one rest are parsed alike. -/
theorem parsedAlike_of_rest (same : SameRest fmt other (i + 1) (k + 1)) : ParsedAlike fmt other i k := by
  have inside := same.inside
  have otherInside := same.otherInside
  have parsed : FoundAlike fmt other (parseFlags fmt (fmt.bytes.length + 1) 0 i)
      (parseFlags other (other.bytes.length + 1) 0 k) :=
    parseFlags_alike 0 same (by omega) (by omega)
  obtain ⟨flags, j, l, found, otherFound, behind⟩ := parsed
  have width := widthAlike_of_value behind.inside behind.otherInside (by rw [behind.rest])
    (by rw [behind.rest])
  exact parsedAlike_of_width found otherFound width

/-- What is left of a format behind a turn or a run, the arguments left and what was printed. -/
def outcome (fmt : CString) (run : Except Fault Vprintf) :
    Except Fault (List UInt8 × List VaArg × Printer) :=
  run.map fun v => (fmt.rest v.i, v.args, v.printer)

/-- The next character of a rest. -/
theorem CString.rest_succ (fmt : CString) (i : Nat) : fmt.rest (i + 1) = (fmt.rest i).tail :=
  List.tail_drop.symm

/-- The place of a conversion does not matter when it is printed. -/
theorem printConversion_congr {how otherHow : Conversion} (flags : how.flags = otherHow.flags)
    (width : how.width = otherHow.width) (c : UInt8) (value : VaArg) :
    printConversion c how value = printConversion c otherHow value := by
  unfold printConversion
  rw [flags, width]

/-- Conversions that are parsed alike have one outcome. -/
theorem vprintfStep_of_parsed (percent : fmt.get i = .ok (chr '%'))
    (otherPercent : other.get k = .ok (chr '%')) (parsed : ParsedAlike fmt other i k)
    (args : List VaArg) (p : Printer) :
    outcome fmt (vprintfStep fmt ⟨i, args, p⟩) = outcome other (vprintfStep other ⟨k, args, p⟩) := by
  rw [vprintfStep, vprintfStep, percent, otherPercent, ok_bind, ok_bind, if_neg (not_not.mpr rfl),
    if_neg (not_not.mpr rfl)]
  dsimp only
  rcases parsed with ⟨how, otherHow, parsed, otherParsed, alike⟩ | ⟨failed, otherFailed⟩
  · rw [parsed, otherParsed, ok_bind, ok_bind, ← alike.rest.get, ← alike.length]
    obtain ⟨c, read, -⟩ := fmt.get_of_le alike.rest.inside
    rw [read, ok_bind, ok_bind]
    cases fetchValue c how.length args with
    | error e => rfl
    | ok found =>
      rw [ok_bind, ok_bind, ← printConversion_congr alike.flags alike.width]
      cases printConversion c how found.1 with
      | error e => rfl
      | ok printed =>
        rw [ok_bind, ok_bind]
        cases checkInt (p.chars + printed.chars) with
        | error e => rfl
        | ok chars =>
          have rests : fmt.rest (how.index + 1) = other.rest (otherHow.index + 1) := by
            rw [CString.rest_succ, CString.rest_succ, alike.rest.rest]
          exact congrArg (fun rest => Except.ok (rest, found.2, _)) rests
  · rw [failed, otherFailed]
    rfl

/-- Turns on one rest have one outcome. -/
theorem vprintfStep_alike (same : SameRest fmt other i k) (args : List VaArg) (p : Printer) :
    outcome fmt (vprintfStep fmt ⟨i, args, p⟩) = outcome other (vprintfStep other ⟨k, args, p⟩) := by
  obtain ⟨c, read, -⟩ := fmt.get_of_le same.inside
  have otherRead := same.get.symm.trans read
  by_cases literal : c ≠ chr '%'
  · rw [vprintfStep, vprintfStep, read, otherRead, ok_bind, ok_bind, if_pos literal, if_pos literal]
    cases checkInt (p.chars + 1) with
    | error e => rfl
    | ok chars =>
      have rests : fmt.rest (i + 1) = other.rest (k + 1) := by
        rw [CString.rest_succ, CString.rest_succ, same.rest]
      exact congrArg (fun rest => Except.ok (rest, args, _)) rests
  · rw [not_not.mp literal] at read otherRead
    have behind := same.next read (by decide)
    exact vprintfStep_of_parsed read otherRead (parsedAlike_of_rest behind) args p

/-- Two outcomes are equal where both run on alike behind equal outcomes. -/
theorem outcome_bind {first second : Except Fault Vprintf} {next otherNext : Vprintf → Except Fault Vprintf}
    (same : outcome fmt first = outcome other second)
    (later : ∀ v w, first = .ok v → second = .ok w → fmt.rest v.i = other.rest w.i →
      w = ⟨w.i, v.args, v.printer⟩ → outcome fmt (next v) = outcome other (otherNext w)) :
    outcome fmt (first >>= next) = outcome other (second >>= otherNext) := by
  cases first with
  | error e =>
    cases second with
    | error e' =>
      cases same
      rfl
    | ok w => cases same
  | ok v =>
    cases second with
    | error e => cases same
    | ok w =>
      obtain ⟨rest, equal⟩ := Prod.mk.inj (Except.ok.inj same)
      obtain ⟨args, printer⟩ := Prod.mk.inj equal
      exact later v w rfl rfl rest (by rw [args, printer])

/-- A format is left behind an index exactly where it has characters there. -/
theorem CString.lt_length_iff (fmt : CString) (i : Nat) : i < fmt.bytes.length ↔ fmt.rest i ≠ [] := by
  rw [CString.rest, ne_eq, List.drop_eq_nil_iff, Nat.not_le]

/-- At the end of a format the main loop is left. -/
theorem vprintfLoop_done (fuel : Nat) {v : Vprintf} (done : ¬ v.i < fmt.bytes.length) :
    vprintfLoop fmt fuel v = .ok v := by
  cases fuel with
  | zero => rw [vprintfLoop, if_neg done]
  | succ fuel => rw [vprintfLoop, if_neg done]

/-- Runs whose first turns have one outcome have one outcome if they go on alike. -/
theorem vprintfLoop_succ {fuel otherFuel : Nat} {args : List VaArg} {p : Printer}
    (more : i < fmt.bytes.length) (otherMore : k < other.bytes.length)
    (turn : outcome fmt (vprintfStep fmt ⟨i, args, p⟩) =
      outcome other (vprintfStep other ⟨k, args, p⟩))
    (later : ∀ j l args p, i < j → k < l → fmt.rest j = other.rest l →
      outcome fmt (vprintfLoop fmt fuel ⟨j, args, p⟩) =
        outcome other (vprintfLoop other otherFuel ⟨l, args, p⟩)) :
    outcome fmt (vprintfLoop fmt (fuel + 1) ⟨i, args, p⟩) =
      outcome other (vprintfLoop other (otherFuel + 1) ⟨k, args, p⟩) := by
  have progress := vprintfStep_meets fmt (v := ⟨i, args, p⟩) more
  have otherProgress := vprintfStep_meets other (v := ⟨k, args, p⟩) otherMore
  rw [vprintfLoop, vprintfLoop, if_pos more, if_pos otherMore]
  refine outcome_bind turn fun v w first second rest same => ?_
  rw [same]
  exact later v.i w.i v.args v.printer (progress.of_ok first) (otherProgress.of_ok second) rest

/-- Runs on one rest have one outcome. -/
theorem vprintfLoop_alike {fuel otherFuel : Nat} (rest : fmt.rest i = other.rest k)
    (enough : fmt.bytes.length ≤ i + fuel) (otherEnough : other.bytes.length ≤ k + otherFuel)
    (args : List VaArg) (p : Printer) :
    outcome fmt (vprintfLoop fmt fuel ⟨i, args, p⟩) =
      outcome other (vprintfLoop other otherFuel ⟨k, args, p⟩) := by
  have ends : i < fmt.bytes.length ↔ k < other.bytes.length := by
    rw [fmt.lt_length_iff, other.lt_length_iff, rest]
  induction fuel generalizing i k otherFuel args p with
  | zero =>
    have done : ¬ i < fmt.bytes.length := by omega
    rw [vprintfLoop_done 0 (v := ⟨i, args, p⟩) done, vprintfLoop_done otherFuel (mt ends.mpr done)]
    exact congrArg (fun rest => Except.ok (rest, args, p)) rest
  | succ fuel ih =>
    by_cases more : i < fmt.bytes.length
    · have otherMore := ends.mp more
      cases otherFuel with
      | zero => omega
      | succ otherFuel =>
        have turn := vprintfStep_alike ⟨more.le, otherMore.le, rest⟩ args p
        refine vprintfLoop_succ more otherMore turn fun j l args p after otherAfter behind => ?_
        exact ih behind (by omega) (by omega) args p (by
          rw [fmt.lt_length_iff, other.lt_length_iff, behind])
    · rw [vprintfLoop_done (fuel + 1) more, vprintfLoop_done otherFuel (mt ends.mpr more)]
      exact congrArg (fun rest => Except.ok (rest, args, p)) rest

/-- Runs whose first turns have one outcome have one outcome. -/
theorem vprintfLoop_of_turn {fuel otherFuel : Nat} {args : List VaArg} {p : Printer}
    (more : i < fmt.bytes.length) (otherMore : k < other.bytes.length)
    (enough : fmt.bytes.length ≤ i + fuel) (otherEnough : other.bytes.length ≤ k + otherFuel)
    (turn : outcome fmt (vprintfStep fmt ⟨i, args, p⟩) =
      outcome other (vprintfStep other ⟨k, args, p⟩)) :
    outcome fmt (vprintfLoop fmt fuel ⟨i, args, p⟩) =
      outcome other (vprintfLoop other otherFuel ⟨k, args, p⟩) := by
  obtain ⟨fuel, rfl⟩ : ∃ n, fuel = n + 1 := Nat.exists_eq_succ_of_ne_zero (by omega)
  obtain ⟨otherFuel, rfl⟩ : ∃ n, otherFuel = n + 1 := Nat.exists_eq_succ_of_ne_zero (by omega)
  refine vprintfLoop_succ more otherMore turn fun j l args p after otherAfter behind => ?_
  exact vprintfLoop_alike behind (by omega) (by omega) args p

end Symphony
