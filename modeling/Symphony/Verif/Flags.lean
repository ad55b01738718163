import Symphony.Verif.Rests

/-!
# Flags in any order

The loop over the flags ends with the first character that sets no new flag, which is the first
character that is no flag, or the first repetition. A repeated zero is read as a digit of the
width and changes nothing; any other repetition is taken for the conversion.
-/

namespace Symphony

variable {fmt other : CString} {i k : Nat}

/-! ## Flag words -/

/-- The flag word behind some flag characters. -/
def flagsOf (prev : Int32) (flags : List UInt8) : Int32 :=
  flags.foldl (fun word c => word ||| flagBit c) prev

/-- A flag word has bits in common with a disjunction where it has some with one part. -/
theorem and_or_eq_zero_iff (a b m : Int32) : (a ||| b) &&& m = 0 ↔ a &&& m = 0 ∧ b &&& m = 0 := by
  have distribute : (a ||| b) &&& m = (a &&& m) ||| (b &&& m) :=
    Int32.toBitVec_inj.mp BitVec.and_or_distrib_right
  rw [distribute, Int32.or_eq_zero_iff]

/-- Different flags have different bits. -/
theorem flagBit_and {c d : UInt8} (isFlag : c ∈ flagChars) (other : d ∈ flagChars) :
    flagBit c &&& flagBit d = 0 ↔ c ≠ d := by
  have table : ∀ c ∈ flagChars, ∀ d ∈ flagChars, flagBit c &&& flagBit d = 0 ↔ c ≠ d := by decide +kernel
  exact table c isFlag d other

/-- The order of the flags does not matter. -/
theorem flagsOf_perm {flags ordered : List UInt8} (perm : flags.Perm ordered) (prev : Int32) :
    flagsOf prev flags = flagsOf prev ordered := by
  apply perm.foldl_eq'
  intro c _ d _ word
  rw [Int32.or_assoc, Int32.or_comm (flagBit c), ← Int32.or_assoc]

/-- The bit of a flag is set where it was set before or the flag is among those set. -/
theorem flagsOf_and {flags : List UInt8} (areFlags : ∀ x ∈ flags, x ∈ flagChars) {c : UInt8}
    (isFlag : c ∈ flagChars) (prev : Int32) :
    flagsOf prev flags &&& flagBit c = 0 ↔ prev &&& flagBit c = 0 ∧ c ∉ flags := by
  induction flags generalizing prev with
  | nil => simp [flagsOf]
  | cons d flags ih =>
    have head := areFlags d List.mem_cons_self
    have tail := ih (fun x member => areFlags x (List.mem_cons_of_mem d member)) (prev ||| flagBit d)
    change flagsOf (prev ||| flagBit d) flags &&& flagBit c = 0 ↔ _
    rw [tail, and_or_eq_zero_iff, flagBit_and head isFlag, List.mem_cons, not_or, and_assoc, ne_comm]

/-- A flag sets nothing new where it is among those set. -/
theorem or_flagBit_iff {flags : List UInt8} (areFlags : ∀ x ∈ flags, x ∈ flagChars) {c : UInt8}
    (isFlag : c ∈ flagChars) : flagsOf 0 flags ||| flagBit c = flagsOf 0 flags ↔ c ∈ flags := by
  have bits := flagsOf_and areFlags isFlag 0
  constructor
  · intro same
    by_contra absent
    have clear : flagsOf 0 flags &&& flagBit c = 0 := bits.mpr ⟨Int32.zero_and, absent⟩
    rw [← same, and_or_eq_zero_iff, flagBit_and isFlag isFlag] at clear
    exact clear.2 rfl
  · intro member
    have moved := flagsOf_perm (List.perm_cons_erase member) 0
    have last : flagsOf 0 flags = flagsOf 0 (flags.erase c) ||| flagBit c := by
      rw [moved, flagsOf_perm (List.perm_append_singleton c (flags.erase c)).symm, flagsOf,
        List.foldl_append]
      rfl
    rw [last, Int32.or_assoc, Int32.or_self]

/-- Other characters set nothing. -/
theorem flagBit_other {c : UInt8} (other : c ∉ flagChars) : flagBit c = 0 := by
  simp only [flagChars, List.mem_cons, List.not_mem_nil, or_false, not_or] at other
  simp [flagBit, other]

/-! ## Parsed flags -/

/-- The loop over the flags ends in front of the first character that sets no new flag. -/
theorem parseFlags_text {fuel : Nat} (seen : List UInt8) {flags tail : List UInt8}
    (areFlags : ∀ x ∈ seen ++ flags, x ∈ flagChars) (once : (seen ++ flags).Nodup)
    (inside : i < fmt.bytes.length) (rest : fmt.rest (i + 1) = flags ++ tail)
    (stop : ∀ c, tail.head? = some c →
      flagsOf 0 (seen ++ flags) ||| flagBit c = flagsOf 0 (seen ++ flags))
    (enough : flags.length < fuel) :
    parseFlags fmt fuel (flagsOf 0 seen) i =
      .ok (flagsOf 0 (seen ++ flags), i + 1 + flags.length) := by
  induction flags generalizing seen i fuel with
  | nil =>
    cases fuel with
    | zero => exact absurd enough (Nat.not_lt_zero _)
    | succ fuel =>
      rw [List.append_nil] at stop ⊢
      have same : ∃ c, fmt.get (i + 1) = .ok c ∧ flagsOf 0 seen ||| flagBit c = flagsOf 0 seen := by
        cases tail with
        | nil => exact ⟨0, CString.get_of_rest_nil inside rest, Int32.or_zero⟩
        | cons c tail => exact ⟨c, (CString.get_of_rest rest).1, stop c rfl⟩
      obtain ⟨c, read, nothing⟩ := same
      rw [parseFlags, read, ok_bind]
      dsimp only
      rw [nothing, if_neg (not_not.mpr rfl)]
      rfl
  | cons c flags ih =>
    cases fuel with
    | zero => exact absurd enough (Nat.not_lt_zero _)
    | succ fuel =>
      obtain ⟨read, next, more⟩ := CString.get_of_rest rest
      have split : seen ++ c :: flags = (seen ++ [c]) ++ flags := by simp
      have fresh : c ∉ seen := by
        intro member
        exact (List.disjoint_of_nodup_append once) member List.mem_cons_self
      have isFlag : c ∈ flagChars := areFlags c (by simp)
      have news : flagsOf 0 seen ||| flagBit c ≠ flagsOf 0 seen :=
        mt (or_flagBit_iff (fun x member => areFlags x (List.mem_append_left _ member)) isFlag).mp fresh
      have word : flagsOf 0 (seen ++ [c]) = flagsOf 0 seen ||| flagBit c := by
        rw [flagsOf, List.foldl_append]
        rfl
      rw [split] at areFlags once stop ⊢
      have later := ih (seen ++ [c]) areFlags once more next stop (Nat.lt_of_succ_lt_succ enough)
      rw [parseFlags, read, ok_bind]
      dsimp only
      rw [if_pos news, ← word, later, List.length_cons]
      congr 2
      omega

/-- The flags of a conversion, up to the first character that sets no new flag. -/
theorem parseFlags_specification {flags tail : List UInt8} (areFlags : ∀ x ∈ flags, x ∈ flagChars)
    (once : flags.Nodup) (rest : fmt.rest i = chr '%' :: (flags ++ tail))
    (stop : ∀ c, tail.head? = some c → flagsOf 0 flags ||| flagBit c = flagsOf 0 flags) :
    parseFlags fmt (fmt.bytes.length + 1) 0 i = .ok (flagsOf 0 flags, i + 1 + flags.length) ∧
      i + 1 + flags.length ≤ fmt.bytes.length ∧ fmt.rest (i + 1 + flags.length) = tail := by
  obtain ⟨-, next, inside⟩ := CString.get_of_rest rest
  have count := congrArg List.length next
  rw [CString.rest, List.length_drop, List.length_append] at count
  refine ⟨?_, by omega, fmt.rest_append next⟩
  exact parseFlags_text [] areFlags once inside next stop (by omega)

/-! ## Repeated flags -/

/-- Zeros in front of a number do not change it. -/
theorem decimal_zeros (zeros : Nat) (digits : List UInt8) :
    decimal (List.replicate zeros (chr '0') ++ digits) = decimal digits := by
  induction zeros with
  | zero => rfl
  | succ zeros ih => exact ih

/-- Zeros in front of a text are digits of it. -/
theorem digits_zeros (zeros : Nat) (text : List UInt8) :
    (List.replicate zeros (chr '0') ++ text).takeWhile isDigit =
        List.replicate zeros (chr '0') ++ text.takeWhile isDigit ∧
      (List.replicate zeros (chr '0') ++ text).dropWhile isDigit = text.dropWhile isDigit := by
  have all : ∀ x ∈ List.replicate zeros (chr '0'), isDigit x = true := by
    intro x member
    rw [List.eq_of_mem_replicate member]
    decide
  exact ⟨List.takeWhile_append_of_pos all, List.dropWhile_append_of_pos all⟩

/-- A text is zeros, or another character comes behind its zeros. -/
theorem zeros_or_other (text : List UInt8) :
    (∃ zeros, text = List.replicate zeros (chr '0')) ∨
      ∃ zeros c later, text = List.replicate zeros (chr '0') ++ c :: later ∧ c ≠ chr '0' := by
  induction text with
  | nil => exact Or.inl ⟨0, rfl⟩
  | cons x text ih =>
    by_cases zero : x = chr '0'
    · rcases ih with ⟨zeros, all⟩ | ⟨zeros, c, later, split, other⟩
      · exact Or.inl ⟨zeros + 1, by rw [zero, all, List.replicate_succ]⟩
      · exact Or.inr ⟨zeros + 1, c, later, by rw [zero, split, List.replicate_succ]; rfl, other⟩
    · exact Or.inr ⟨0, x, text, rfl, zero⟩

/-- The place where the loop over the flags ends at a repetition that is not harmless: flags
without a repetition, then zeros that are digits if there are any, and a flag that is not
taken for one. -/
structure Misread (flags once : List UInt8) (zeros : Nat) (c : UInt8) (later : List UInt8) :
    Prop where
  /-- The flags in front are different. -/
  distinct : once.Nodup
  /-- What comes behind them. -/
  split : flags = once ++ (List.replicate zeros (chr '0') ++ c :: later)
  /-- The last flag is no zero. -/
  other : c ≠ chr '0'
  /-- The first repetition. -/
  repeats : if zeros = 0 then c ∈ once else chr '0' ∈ once

/-- Where more than zeros are repeated, some flag is misread. -/
theorem exists_misread {flags : List UInt8} (repeated : ¬ RepeatsZerosOnly flags) :
    ∃ once zeros c later, Misread flags once zeros c later := by
  have search (seen rest : List UInt8) (distinct : seen.Nodup) (split : flags = seen ++ rest) :
      ∃ once zeros c later, Misread flags once zeros c later := by
    induction rest generalizing seen with
    | nil => exact absurd ⟨seen, 0, distinct, split⟩ repeated
    | cons x rest ih =>
      by_cases member : x ∈ seen
      · by_cases zero : x = chr '0'
        · rw [zero] at member
          rcases zeros_or_other (x :: rest) with ⟨zeros, all⟩ | ⟨zeros, c, later, behind, other⟩
          · exact absurd ⟨seen, zeros, distinct, by rw [split, all]⟩ repeated
          · have some : zeros ≠ 0 := by
              intro none
              rw [none] at behind
              exact other ((List.cons.inj behind).1.symm.trans zero)
            exact ⟨seen, zeros, c, later, distinct, by rw [split, behind], other,
              by rwa [if_neg some]⟩
        · exact ⟨seen, 0, x, rest, distinct, split, zero, by rwa [if_pos rfl]⟩
      · have next : (seen ++ [x]).Nodup := by
          refine List.nodup_append.mpr ⟨distinct, List.nodup_singleton x, ?_⟩
          intro y inside z single same
          rw [List.mem_singleton.mp single] at same
          exact member (same ▸ inside)
        exact ih (seen ++ [x]) next (by rw [split, List.append_assoc]; rfl)
  exact search [] flags List.nodup_nil rfl

/-! ## Specifications -/

/-- A conversion starts no modifier, and neither does a flag. -/
theorem noModifier {c : UInt8} (known : c ∈ conversionChars ∨ c ∈ flagChars) : NoModifier c := by
  have conversions : ∀ c ∈ conversionChars, c ≠ chr 'h' ∧ c ≠ chr 'l' ∧ c ≠ chr 'z' ∧ c ≠ chr 'j' ∧
      c ≠ chr 't' := by decide +kernel
  have flags : ∀ c ∈ flagChars, c ≠ chr 'h' ∧ c ≠ chr 'l' ∧ c ≠ chr 'z' ∧ c ≠ chr 'j' ∧
      c ≠ chr 't' := by decide +kernel
  exact known.elim (conversions c) (flags c)

/-- Behind the width comes a character that is neither a flag nor a digit. -/
theorem head_behind_width {c : UInt8} (conversion : c ∈ conversionChars) (m : Modifier)
    (tail : List UInt8) :
    ∃ x rest, m.text ++ c :: tail = x :: rest ∧ x ∉ flagChars ∧ isDigit x = false := by
  have conversions : ∀ c ∈ conversionChars, c ∉ flagChars ∧ isDigit c = false := by decide +kernel
  cases m with
  | none => exact ⟨c, tail, rfl, conversions c conversion⟩
  | hh => exact ⟨_, _, rfl, by decide⟩
  | h => exact ⟨_, _, rfl, by decide⟩
  | l => exact ⟨_, _, rfl, by decide⟩
  | ll => exact ⟨_, _, rfl, by decide⟩
  | z => exact ⟨_, _, rfl, by decide⟩
  | j => exact ⟨_, _, rfl, by decide⟩
  | t => exact ⟨_, _, rfl, by decide⟩

/-- Only the zero is both a flag and a digit. -/
theorem eq_zero_of_flag {c : UInt8} (isFlag : c ∈ flagChars) (digit : isDigit c = true) :
    c = chr '0' := by
  have table : ∀ c ∈ flagChars, isDigit c = true → c = chr '0' := by decide +kernel
  exact table c isFlag digit

namespace IsSpecification

variable {flags width : List UInt8} {c : UInt8}

/-- No flag follows the flags. -/
theorem head_not_flag (parts : IsSpecification flags width c) (m : Modifier) (tail : List UInt8)
    {x : UInt8} (head : (width ++ (m.text ++ c :: tail)).head? = some x) : x ∉ flagChars := by
  have noZero := parts.noZero
  have digits := parts.digits
  cases width with
  | nil =>
    obtain ⟨y, rest, behind, notFlag, -⟩ := head_behind_width parts.conversion m tail
    rw [List.nil_append, behind] at head
    cases head
    exact notFlag
  | cons y width =>
    rw [← Option.some.inj head]
    intro isFlag
    exact noZero (congrArg some (eq_zero_of_flag isFlag (digits y List.mem_cons_self)))

/-- The width is what the digits make up. -/
theorem takeWhile_width (parts : IsSpecification flags width c) (m : Modifier) (tail : List UInt8) :
    (width ++ (m.text ++ c :: tail)).takeWhile isDigit = width := by
  obtain ⟨y, rest, behind, -, notDigit⟩ := head_behind_width parts.conversion m tail
  rw [List.takeWhile_append_of_pos parts.digits, behind,
    List.takeWhile_cons_of_neg (by rw [notDigit]; exact Bool.false_ne_true), List.append_nil]

/-- Flags of which only zeros are repeated are parsed as the different ones among them; the
other zeros are left in front of the width. -/
theorem parseFlags_of_zeros (parts : IsSpecification flags width c) {m : Modifier}
    {tail once : List UInt8} {zeros : Nat} (distinct : once.Nodup)
    (split : flags = once ++ List.replicate zeros (chr '0')) (seen : zeros = 0 ∨ chr '0' ∈ once)
    (rest : fmt.rest i = specification flags width m c tail) :
    ∃ j, parseFlags fmt (fmt.bytes.length + 1) 0 i = .ok (flagsOf 0 once, j) ∧
      j ≤ fmt.bytes.length ∧
      fmt.rest j = List.replicate zeros (chr '0') ++ (width ++ (m.text ++ c :: tail)) := by
  have areFlags : ∀ x ∈ once, x ∈ flagChars :=
    fun x member => parts.flags x (by rw [split]; exact List.mem_append_left _ member)
  have stop : ∀ x, (List.replicate zeros (chr '0') ++ (width ++ (m.text ++ c :: tail))).head? = some x →
      flagsOf 0 once ||| flagBit x = flagsOf 0 once := by
    intro x head
    cases zeros with
    | zero =>
      rw [flagBit_other (parts.head_not_flag m tail head)]
      exact Int32.or_zero
    | succ zeros =>
      cases head
      exact (or_flagBit_iff areFlags (by decide)).mpr (seen.resolve_left (Nat.succ_ne_zero zeros))
  rw [specification, split, List.append_assoc] at rest
  exact ⟨_, parseFlags_specification areFlags distinct rest stop⟩

/-- Different flags are parsed, and the width is behind them. -/
theorem parseFlags_once (parts : IsSpecification flags width c) {m : Modifier} {tail : List UInt8}
    (distinct : flags.Nodup) (rest : fmt.rest i = specification flags width m c tail) :
    ∃ j, parseFlags fmt (fmt.bytes.length + 1) 0 i = .ok (flagsOf 0 flags, j) ∧
      j ≤ fmt.bytes.length ∧ fmt.rest j = width ++ (m.text ++ c :: tail) :=
  parts.parseFlags_of_zeros distinct
    (show flags = flags ++ List.replicate 0 (chr '0') from (List.append_nil flags).symm) (Or.inl rfl)
    rest

end IsSpecification

/-- Where only zeros are repeated, the zeros behind the other flags may be taken to be
repetitions. -/
theorem RepeatsZerosOnly.normal {flags : List UInt8} (repeats : RepeatsZerosOnly flags) :
    ∃ once zeros, once.Nodup ∧ flags = once ++ List.replicate zeros (chr '0') ∧
      (zeros = 0 ∨ chr '0' ∈ once) := by
  obtain ⟨once, zeros, distinct, split⟩ := repeats
  by_cases seen : chr '0' ∈ once
  · exact ⟨once, zeros, distinct, split, Or.inr seen⟩
  · cases zeros with
    | zero => exact ⟨once, 0, distinct, split, Or.inl rfl⟩
    | succ zeros =>
      refine ⟨once ++ [chr '0'], zeros, ?_, ?_, Or.inr (by simp)⟩
      · refine List.nodup_append.mpr ⟨distinct, List.nodup_singleton _, ?_⟩
        intro y inside z single same
        rw [List.mem_singleton.mp single] at same
        exact seen (same ▸ inside)
      · rw [split, List.replicate_succ, List.append_assoc]
        rfl

/-! ## Turns on a specification -/

section

variable {flags ordered width tail : List UInt8} {c : UInt8} {m : Modifier}

/-- Flags of which only zeros are repeated are parsed as the same flags in any other order. -/
theorem parsedAlike_of_zeros (parts : IsSpecification flags width c) (repeats : RepeatsZerosOnly flags)
    (distinct : ordered.Nodup) (same : ∀ x, x ∈ ordered ↔ x ∈ flags)
    (rest : fmt.rest i = specification flags width m c tail)
    (otherRest : other.rest k = specification ordered width m c tail) :
    ParsedAlike fmt other i k := by
  have otherParts : IsSpecification ordered width c :=
    ⟨fun x member => parts.flags x ((same x).mp member), parts.digits, parts.noZero, parts.conversion⟩
  obtain ⟨once, zeros, onceDistinct, split, seen⟩ := repeats.normal
  have members (x : UInt8) : x ∈ once ↔ x ∈ ordered := by
    rw [same, split, List.mem_append, List.mem_replicate]
    constructor
    · exact Or.inl
    · rintro (member | ⟨some, zero⟩)
      · exact member
      · rw [zero]
        exact seen.resolve_left some
  have perm : once.Perm ordered := (List.perm_ext_iff_of_nodup onceDistinct distinct).mpr members
  obtain ⟨j, found, inside, behind⟩ := parts.parseFlags_of_zeros onceDistinct split seen rest
  obtain ⟨l, otherFound, otherInside, otherBehind⟩ := otherParts.parseFlags_once distinct otherRest
  rw [← flagsOf_perm perm] at otherFound
  apply parsedAlike_of_width found otherFound
  apply widthAlike_of_value inside otherInside
  · rw [behind, otherBehind, (digits_zeros _ _).1, decimal_zeros]
  · rw [behind, otherBehind, (digits_zeros _ _).2]

/-- A turn ends behind the conversion character that was parsed. -/
theorem vprintfStep_index {how : Conversion} (percent : fmt.get i = .ok (chr '%'))
    (parsed : parseConversion fmt i = .ok how) {args : List VaArg} {p : Printer} {w : Vprintf}
    (returned : vprintfStep fmt ⟨i, args, p⟩ = .ok w) : w.i = how.index + 1 := by
  rw [vprintfStep, percent, ok_bind, if_neg (not_not.mpr rfl), parsed, ok_bind] at returned
  obtain ⟨code, -, returned⟩ := bind_eq_ok.mp returned
  obtain ⟨found, -, returned⟩ := bind_eq_ok.mp returned
  obtain ⟨printed, -, returned⟩ := bind_eq_ok.mp returned
  obtain ⟨chars, -, same⟩ := bind_eq_ok.mp returned
  cases same
  rfl

/-- A turn on a specification with different flags ends behind it. -/
theorem vprintfStep_behind (parts : IsSpecification ordered width c) (distinct : ordered.Nodup)
    (rest : fmt.rest i = specification ordered width m c tail) {args : List VaArg} {p : Printer}
    {w : Vprintf} (returned : vprintfStep fmt ⟨i, args, p⟩ = .ok w) : fmt.rest w.i = tail := by
  obtain ⟨percent, -, -⟩ := CString.get_of_rest rest
  obtain ⟨j, found, inside, behind⟩ := parts.parseFlags_once distinct rest
  have value := parseWidth_value inside
  rw [behind, parts.takeWhile_width m tail] at value
  by_cases fits : decimal width < 2 ^ 31
  · rw [if_pos fits] at value
    have behindWidth := fmt.rest_append behind
    have length := parseLength_text (noModifier (Or.inl parts.conversion)) behindWidth
    have index := vprintfStep_index percent (parseConversion_parts found value length) returned
    rw [index, CString.rest_succ, fmt.rest_append behindWidth]
    rfl
  · rw [if_neg fits] at value
    rw [vprintfStep, percent, ok_bind, if_neg (not_not.mpr rfl), parseConversion, found, ok_bind]
      at returned
    dsimp only at returned
    rw [value] at returned
    cases returned

/-- A flag is taken for a conversion: nothing is fetched and nothing is printed. -/
theorem flag_not_conversion {c : UInt8} (isFlag : c ∈ flagChars) (length : Length) (args : List VaArg)
    (how : Conversion) :
    fetchValue c length args = .ok (⟨0, none⟩, args) ∧
      printConversion c how ⟨0, none⟩ = .ok ⟨[], 0⟩ := by
  simp only [flagChars, List.mem_cons, List.not_mem_nil, or_false] at isFlag
  rcases isFlag with rfl | rfl | rfl | rfl | rfl | rfl <;> exact ⟨rfl, rfl⟩

/-- A misread flag ends its turn in front of what follows it. -/
theorem Misread.step {once later : List UInt8} {zeros : Nat} {flag : UInt8}
    (misread : Misread flags once zeros flag later) (areFlags : ∀ x ∈ flags, x ∈ flagChars)
    {text : List UInt8} (rest : fmt.rest i = chr '%' :: (flags ++ text)) (args : List VaArg)
    {p : Printer} (counter : -2 ^ 31 ≤ p.chars ∧ p.chars < 2 ^ 31) :
    ∃ w, vprintfStep fmt ⟨i, args, p⟩ = .ok w ∧ fmt.rest w.i = later ++ text := by
  obtain ⟨percent, -, -⟩ := CString.get_of_rest rest
  have split := misread.split
  have isFlag : flag ∈ flagChars := areFlags flag (by rw [split]; simp)
  have onceFlags : ∀ x ∈ once, x ∈ flagChars :=
    fun x member => areFlags x (by rw [split]; exact List.mem_append_left _ member)
  rw [split, List.append_assoc, List.append_assoc, List.cons_append] at rest
  -- The flags end at the first repetition.
  have stop : ∀ x, (List.replicate zeros (chr '0') ++ flag :: (later ++ text)).head? = some x →
      flagsOf 0 once ||| flagBit x = flagsOf 0 once := by
    intro x head
    have repeats := misread.repeats
    cases zeros with
    | zero =>
      cases head
      exact (or_flagBit_iff onceFlags isFlag).mpr repeats
    | succ zeros =>
      cases head
      exact (or_flagBit_iff onceFlags (by decide)).mpr repeats
  obtain ⟨found, inside, behind⟩ := parseFlags_specification onceFlags misread.distinct rest stop
  -- The zeros behind them are a width of zero.
  have notDigit : ¬ isDigit flag = true := fun digit => misread.other (eq_zero_of_flag isFlag digit)
  have digits : (fmt.rest (i + 1 + once.length)).takeWhile isDigit =
      List.replicate zeros (chr '0') := by
    rw [behind, (digits_zeros _ _).1, List.takeWhile_cons_of_neg notDigit, List.append_nil]
  have number : decimal (List.replicate zeros (chr '0')) = 0 := by
    rw [← List.append_nil (List.replicate zeros _), decimal_zeros]
    rfl
  have value := parseWidth_value inside
  rw [digits, number, if_pos (by decide)] at value
  have behindWidth := fmt.rest_append behind
  -- The repeated flag is the conversion.
  generalize i + 1 + once.length + (List.replicate zeros (chr '0')).length = place at *
  obtain ⟨length, l, foundLength, same⟩ : ∃ length l, parseLength fmt place = .ok (length, l) ∧
      l = place := ⟨_, _, parseLength_text (m := .none) (noModifier (Or.inr isFlag)) behindWidth, rfl⟩
  rw [same] at foundLength
  obtain ⟨read, next, -⟩ := CString.get_of_rest behindWidth
  refine ⟨⟨place + 1, args, ⟨p.out ++ [], p.chars + 0⟩⟩, ?_, next⟩
  rw [vprintfStep, percent, ok_bind, if_neg (not_not.mpr rfl),
    parseConversion_parts found value foundLength, ok_bind, read, ok_bind]
  dsimp only
  rw [(flag_not_conversion isFlag _ args ⟨0, 0, .int, 0⟩).1, ok_bind]
  dsimp only
  rw [(flag_not_conversion isFlag .int args _).2, ok_bind, checkInt, if_pos (by simpa using counter)]
  rfl

/-- For every specification in two formats, with flags in any order and number in the first one
and each of them once in the second one: the turns of `debug_vprintf` on them leave the same
text and the same arguments and print the same characters, and so do the runs from there on,
exactly where only zeros are repeated, behind all other flags. -/
theorem vprintfStep_flags (parts : IsSpecification flags width c) (distinct : ordered.Nodup)
    (same : ∀ x, x ∈ ordered ↔ x ∈ flags) (rest : fmt.rest i = specification flags width m c tail)
    (otherRest : other.rest k = specification ordered width m c tail) (args : List VaArg) {p : Printer}
    (counter : -2 ^ 31 ≤ p.chars ∧ p.chars < 2 ^ 31) :
    (outcome fmt (vprintfStep fmt ⟨i, args, p⟩) = outcome other (vprintfStep other ⟨k, args, p⟩) ∧
      outcome fmt (vprintfLoop fmt fmt.bytes.length ⟨i, args, p⟩) =
        outcome other (vprintfLoop other other.bytes.length ⟨k, args, p⟩)) ↔
      RepeatsZerosOnly flags := by
  obtain ⟨percent, -, more⟩ := CString.get_of_rest rest
  obtain ⟨otherPercent, -, otherMore⟩ := CString.get_of_rest otherRest
  constructor
  · rintro ⟨turn, -⟩
    by_contra repeated
    obtain ⟨once, zeros, flag, later, misread⟩ := exists_misread repeated
    obtain ⟨w, returned, behind⟩ := misread.step parts.flags rest args counter
    rw [returned] at turn
    cases reference : vprintfStep other ⟨k, args, p⟩ with
    | error e =>
      rw [reference] at turn
      cases turn
    | ok v =>
      rw [reference] at turn
      have otherParts : IsSpecification ordered width c :=
        ⟨fun x member => parts.flags x ((same x).mp member), parts.digits, parts.noZero,
          parts.conversion⟩
      have rests : fmt.rest w.i = other.rest v.i := congrArg Prod.fst (Except.ok.inj turn)
      rw [behind, vprintfStep_behind otherParts distinct otherRest reference] at rests
      have lengths := congrArg List.length rests
      simp only [List.length_append, List.length_cons] at lengths
      omega
  · intro repeats
    have parsed := parsedAlike_of_zeros parts repeats distinct same rest otherRest
    have turn := vprintfStep_of_parsed percent otherPercent parsed args p
    exact ⟨turn, vprintfLoop_of_turn more otherMore (Nat.le_add_left _ _) (Nat.le_add_left _ _) turn⟩

end

/-- The format `%0-05u`. -/
def zeroTwiceFormat : CString where
  bytes := specification (['0', '-', '0'].map chr) (['5'].map chr) .none (chr 'u') []
  noNul := by decide
  fits := by decide

/-- The format `%-05u`, in another order. -/
def zeroOnceFormat : CString where
  bytes := specification (['-', '0'].map chr) (['5'].map chr) .none (chr 'u') []
  noNul := by decide
  fits := by decide

/-- A repeated zero behind the other flags does no harm. -/
theorem vprintfStep_flags_zero :
    outcome zeroTwiceFormat (vprintfStep zeroTwiceFormat ⟨0, [⟨42, none⟩], ⟨[], 0⟩⟩) =
        outcome zeroOnceFormat (vprintfStep zeroOnceFormat ⟨0, [⟨42, none⟩], ⟨[], 0⟩⟩) ∧
      outcome zeroTwiceFormat (vprintfLoop zeroTwiceFormat 6 ⟨0, [⟨42, none⟩], ⟨[], 0⟩⟩) =
        outcome zeroOnceFormat (vprintfLoop zeroOnceFormat 5 ⟨0, [⟨42, none⟩], ⟨[], 0⟩⟩) := by
  have repeats : RepeatsZerosOnly (['0', '-', '0'].map chr) :=
    ⟨['0', '-'].map chr, 1, by decide, rfl⟩
  exact (vprintfStep_flags (c := chr 'u')
    ⟨by decide +kernel, by decide +kernel, by decide, by decide⟩ (by decide)
    (fun x => by simp [or_comm]; exact Or.inr) rfl rfl [⟨42, none⟩]
    ⟨by decide, by decide⟩).mpr repeats

/-- The format `%--5u`. -/
def minusTwiceFormat : CString where
  bytes := specification (['-', '-'].map chr) (['5'].map chr) .none (chr 'u') []
  noNul := by decide
  fits := by decide

/-- The format `%-5u`. -/
def minusOnceFormat : CString where
  bytes := specification (['-'].map chr) (['5'].map chr) .none (chr 'u') []
  noNul := by decide
  fits := by decide

/-- A repeated minus is taken for the conversion: the argument is left, and the width and the
conversion are printed as they stand. -/
theorem minus_misread :
    (∃ p, debugVprintf minusTwiceFormat [⟨42, none⟩] = .ok p ∧ p.out = ['5', 'u'].map chr) ∧
    (∃ p, debugVprintf minusOnceFormat [⟨42, none⟩] = .ok p ∧
      p.out = ['4', '2', ' ', ' ', ' '].map chr) ∧
    (vprintfLoop minusTwiceFormat 5 ⟨0, [⟨42, none⟩], ⟨[], 0⟩⟩).map Vprintf.args =
      .ok [⟨42, none⟩] ∧
    (vprintfLoop minusOnceFormat 4 ⟨0, [⟨42, none⟩], ⟨[], 0⟩⟩).map Vprintf.args = .ok [] :=
  ⟨⟨_, rfl, rfl⟩, ⟨_, rfl, rfl⟩, rfl, rfl⟩

end Symphony
