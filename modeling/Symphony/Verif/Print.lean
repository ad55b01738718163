import Symphony.Verif.PrintInt
import Symphony.Verif.Reads

/-!
# The formatted printers

A run of `debug_vprintf` prints the pieces of its format one after another and adds what each
of them counts to one counter. The counter is compared with the characters piece by piece: it
runs ahead by 36 at each percent sign and falls behind by the prefix of a base.
-/

namespace Symphony

/-! ## One piece -/

/-- What the code does with a piece. -/
def Piece.printed : Piece → Except Fault Printer
  | .literal c => .ok ⟨[c], 1⟩
  | .conversion c how value => printConversion c how value

/-- Printing characters one by one appends them. -/
theorem foldl_putchar (text : List UInt8) (p : Printer) :
    text.foldl Printer.putchar p = ⟨p.out ++ text, p.chars⟩ := by
  induction text generalizing p with
  | nil => simp
  | cons c text ih =>
    rw [List.foldl_cons, ih]
    simp [Printer.putchar, debugPutchar]

/-- A string whose length is an `int` is counted right. -/
theorem debugPrint_eq (str : CString) (short : str.bytes.length < 2 ^ 31) :
    debugPrint str = ⟨str.bytes, str.bytes.length⟩ := by
  have length : (strlen str).toNat = str.bytes.length := toNat_ofNat_of_fits str.fits
  have count : (intOfWord (strlen str)).toInt = str.bytes.length := by
    rw [toInt_intOfWord, length]
    apply Int.bmod_eq_of_le <;> omega
  rw [debugPrint, foldl_putchar, count]
  rfl

/-- An integer returns its characters and counts all of them but the prefix of the base. -/
theorem debugPrintInt_eq_ok {base : Int32} (isBase : IsBase base) {n : UInt64} {flags : Int32}
    {width : Int} {sign upper : Bool} {p : Printer} :
    debugPrintInt n flags width base sign upper = .ok p ↔ signedValue n sign ≠ -2 ^ 63 ∧
      p = ⟨printedInt base flags width upper (signedValue n sign),
        (printedInt base flags width upper (signedValue n sign)).length -
          (baseChars base flags upper).length⟩ := by
  rw [debugPrintInt_eq isBase]
  by_cases overflow : signedValue n sign = -2 ^ 63
  · simp [overflow]
  · rw [if_neg overflow, Except.ok.injEq]
    exact ⟨fun same => ⟨overflow, same.symm⟩, fun both => both.2.symm⟩

/-- An unsigned value has a negation. -/
theorem signedValue_unsigned (n : UInt64) : signedValue n false ≠ -2 ^ 63 := by
  have value : signedValue n false = n.toNat := rfl
  omega

/-- The prefix of a base is what its conversions do not count. -/
theorem Piece.excess_int {c : UInt8} {base : Int32} (how : Conversion) (value : VaArg) (upper : Bool)
    (code : (c = chr 'd' ∨ c = chr 'i' ∨ c = chr 'u') ∧ base = 10 ∨
      (c = chr 'x' ∨ c = chr 'X' ∨ c = chr 'p') ∧ base = 16 ∨ c = chr 'o' ∧ base = 8) :
    (conversion c how value).excess = -(baseChars base how.flags upper).length := by
  by_cases hash : how.flags &&& specialHash = 0
  · rcases code with ⟨rfl | rfl | rfl, rfl⟩ | ⟨rfl | rfl | rfl, rfl⟩ | ⟨rfl, rfl⟩ <;>
      simp [excess, chr, baseChars, hash]
  · rcases code with ⟨rfl | rfl | rfl, rfl⟩ | ⟨rfl | rfl | rfl, rfl⟩ | ⟨rfl, rfl⟩ <;>
      simp [excess, chr, baseChars, hash]

/-- A piece that prints an integer returns its text, unless the value has no negation. -/
theorem Piece.printed_int {piece : Piece} {base flags : Int32} (isBase : IsBase base) {n : UInt64}
    {width : Int} {sign upper : Bool}
    (code : piece.printed = debugPrintInt n flags width base sign upper)
    (text : piece.text = printedInt base flags width upper (signedValue n sign))
    (defined : piece.Defined ↔ signedValue n sign ≠ -2 ^ 63)
    (excess : piece.excess = -(baseChars base flags upper).length) {p : Printer} :
    piece.printed = .ok p ↔
      piece.Defined ∧ p = ⟨piece.text, piece.text.length + piece.excess⟩ := by
  rw [code, debugPrintInt_eq_ok isBase, defined, text, excess]
  rfl

/-- A piece whose code cannot fail returns its text. -/
theorem Piece.printed_plain {piece : Piece} {q : Printer} (code : piece.printed = .ok q)
    (defined : piece.Defined) (text : q = ⟨piece.text, piece.text.length + piece.excess⟩)
    {p : Printer} : piece.printed = .ok p ↔
      piece.Defined ∧ p = ⟨piece.text, piece.text.length + piece.excess⟩ := by
  rw [code, Except.ok.injEq, text]
  exact ⟨fun same => ⟨defined, same.symm⟩, fun both => both.2.symm⟩

/-- A string is counted right, and undefined where nothing is behind its pointer. -/
theorem Piece.printed_string {how : Conversion} {value : VaArg}
    (short : (conversion (chr 's') how value).text.length < 2 ^ 31) {p : Printer} :
    (conversion (chr 's') how value).printed = .ok p ↔
      (conversion (chr 's') how value).Defined ∧ p = ⟨(conversion (chr 's') how value).text,
        (conversion (chr 's') how value).text.length + (conversion (chr 's') how value).excess⟩ := by
  have noExcess : (conversion (chr 's') how value).excess = 0 := by simp [excess, chr]
  have noNegation : chr 's' = chr 'd' ∨ chr 's' = chr 'i' → signedValue value.slot true ≠ -2 ^ 63 :=
    fun other => absurd other (by decide)
  by_cases null : value.slot = 0
  · have code : (conversion (chr 's') how value).printed = .ok (debugPrint nullText) := by
      change (if value.slot = 0 then Except.ok (debugPrint nullText) else _) = _
      rw [if_pos null]
    have text : (conversion (chr 's') how value).text = nullText.bytes := by
      change (if value.slot = 0 then nullText.bytes else _) = _
      rw [if_pos null]
    apply printed_plain code ⟨fun _ => Or.inl null, noNegation⟩
    rw [text, noExcess, debugPrint_eq nullText (by decide), Int.add_zero]
  · have text : (conversion (chr 's') how value).text = (value.text.map CString.bytes).getD [] := by
      change (if value.slot = 0 then nullText.bytes else _) = _
      rw [if_neg null]
    cases behind : value.text with
    | none =>
      have code : (conversion (chr 's') how value).printed = .error .undefined := by
        change (if value.slot = 0 then Except.ok (debugPrint nullText) else _) = _
        rw [if_neg null, behind]
      rw [code]
      constructor
      · intro returned
        cases returned
      · intro both
        have present := both.1.1 rfl
        simp [null, behind] at present
    | some str =>
      have code : (conversion (chr 's') how value).printed = .ok (debugPrint str) := by
        change (if value.slot = 0 then Except.ok (debugPrint nullText) else _) = _
        rw [if_neg null, behind]
      rw [behind] at text
      rw [text] at short
      apply printed_plain code ⟨fun _ => Or.inr (by rw [behind]; rfl), noNegation⟩
      rw [text, noExcess, debugPrint_eq str short, Int.add_zero]
      rfl

/-- A piece returns its text, unless it is undefined, and counts it up to its excess. -/
theorem Piece.printed_eq_ok {piece : Piece} (short : piece.text.length < 2 ^ 31) {p : Printer} :
    piece.printed = .ok p ↔
      piece.Defined ∧ p = ⟨piece.text, piece.text.length + piece.excess⟩ := by
  cases piece with
  | literal c =>
    have defined : Defined (.literal c) := trivial
    exact printed_plain rfl defined rfl
  | conversion c how value =>
    have isTen : IsBase 10 := Or.inr (Or.inl rfl)
    have isHex : IsBase 16 := Or.inr (Or.inr rfl)
    by_cases percent : c = chr '%'
    · subst percent
      refine printed_plain rfl ?_ rfl
      exact ⟨fun other => absurd other (by decide), fun other => absurd other (by decide)⟩
    by_cases isSigned : c = chr 'd' ∨ c = chr 'i'
    · have defined : Defined (.conversion c how value) ↔ signedValue value.slot true ≠ -2 ^ 63 := by
        rcases isSigned with rfl | rfl <;> simp [Defined, chr]
      rcases isSigned with rfl | rfl
      · exact printed_int isTen rfl rfl defined (excess_int how value _ (by simp))
      · exact printed_int isTen rfl rfl defined (excess_int how value _ (by simp))
    by_cases isUnsigned : c = chr 'u' ∨ c = chr 'x' ∨ c = chr 'X' ∨ c = chr 'p' ∨ c = chr 'o'
    · have defined : Defined (.conversion c how value) ↔ signedValue value.slot false ≠ -2 ^ 63 := by
        have negatable := signedValue_unsigned value.slot
        rcases isUnsigned with rfl | rfl | rfl | rfl | rfl <;>
          simpa [Defined, chr] using negatable
      rcases isUnsigned with rfl | rfl | rfl | rfl | rfl
      · exact printed_int isTen rfl rfl defined (excess_int how value _ (by simp))
      · exact printed_int isHex rfl rfl defined (excess_int how value _ (by simp))
      · exact printed_int isHex rfl rfl defined (excess_int how value _ (by simp))
      · exact printed_int isHex rfl rfl defined (excess_int how value _ (by simp))
      · exact printed_int (Or.inl rfl) rfl rfl defined (excess_int how value _ (by simp))
    by_cases isString : c = chr 's'
    · subst isString
      exact printed_string short
    have defined : Defined (.conversion c how value) :=
      ⟨fun other => absurd other isString, fun other => absurd other isSigned⟩
    by_cases isChar : c = chr 'c'
    · subst isChar
      apply printed_plain rfl defined
      simp [text, excess, chr, Printer.count, Printer.putchar, debugPutchar]
    have code : printed (.conversion c how value) = .ok ⟨[], 0⟩ := by
      simp only [not_or] at isSigned isUnsigned
      simp [printed, printConversion, percent, isSigned, isUnsigned, isString, isChar]
    apply printed_plain code defined
    simp only [not_or] at isSigned isUnsigned
    simp [text, excess, percent, isSigned, isUnsigned, isString, isChar]

/-- The prefix of the base is part of what is printed. -/
theorem length_baseChars_le (base flags : Int32) (width : Int) (upper : Bool) (v : Int) :
    (baseChars base flags upper).length ≤ (printedInt base flags width upper v).length := by
  simp only [printedInt, List.length_append]
  omega

/-- A piece adds no negative number to the counter. -/
theorem Piece.counts (piece : Piece) : 0 ≤ piece.text.length + piece.excess := by
  cases piece with
  | literal c =>
    change (0 : Int) ≤ 1 + 0
    decide
  | conversion c how value =>
    have shown (base : Int32) (upper : Bool) :=
      length_baseChars_le base how.flags how.width upper (signedValue value.slot false)
    by_cases based : c = chr 'x' ∨ c = chr 'X' ∨ c = chr 'p' ∨ c = chr 'o'
    · rcases based with rfl | rfl | rfl | rfl
      · rw [excess_int how value false (Or.inr (Or.inl ⟨by simp, rfl⟩))]
        exact Int.sub_nonneg_of_le (Int.ofNat_le.mpr (shown 16 false))
      · rw [excess_int how value true (Or.inr (Or.inl ⟨by simp, rfl⟩))]
        exact Int.sub_nonneg_of_le (Int.ofNat_le.mpr (shown 16 true))
      · rw [excess_int how value true (Or.inr (Or.inl ⟨by simp, rfl⟩))]
        exact Int.sub_nonneg_of_le (Int.ofNat_le.mpr (shown 16 true))
      · rw [excess_int how value false (Or.inr (Or.inr ⟨rfl, rfl⟩))]
        exact Int.sub_nonneg_of_le (Int.ofNat_le.mpr (shown 8 false))
    · have nonneg : 0 ≤ (conversion c how value).excess := by
        simp only [not_or] at based
        unfold excess
        by_cases percent : c = chr '%'
        · simp [percent]
        · simp [percent, based]
      omega

/-! ## The whole run -/

/-- A piece is printed behind what is printed already. -/
def Piece.append (piece : Piece) (p : Printer) : Except Fault Printer := do
  let printed ← piece.printed
  let chars ← checkInt (p.chars + printed.chars)
  .ok ⟨p.out ++ printed.out, chars⟩

/-- What follows a printed piece. -/
theorem Piece.append_bind {α : Type} (piece : Piece) (p : Printer) (next : Printer → Except Fault α) :
    piece.append p >>= next = piece.printed >>= fun printed =>
      checkInt (p.chars + printed.chars) >>= fun chars => next ⟨p.out ++ printed.out, chars⟩ := by
  simp only [append, bind_assoc, ok_bind]

/-- Pieces are printed one after another. -/
def printPieces : List Piece → Printer → Except Fault Printer
  | [], p => .ok p
  | piece :: ps, p => piece.append p >>= printPieces ps

/-- One turn of the main loop reads a piece and prints it. -/
theorem vprintfStep_eq (fmt : CString) (v : Vprintf) :
    vprintfStep fmt v = pieceAt fmt v.i v.args >>= fun found =>
      found.1.append v.printer >>= fun p => .ok ⟨found.2.1, found.2.2, p⟩ := by
  simp only [Piece.append_bind]
  unfold vprintfStep pieceAt
  cases fmt.get v.i with
  | error e => rfl
  | ok c =>
    rw [ok_bind, ok_bind]
    by_cases literal : c ≠ chr '%'
    · rw [if_pos literal, if_pos literal]
      rfl
    · rw [if_neg literal, if_neg literal]
      cases parseConversion fmt v.i with
      | error e => rfl
      | ok how =>
        rw [ok_bind, ok_bind]
        cases fmt.get how.index with
        | error e => rfl
        | ok c =>
          rw [ok_bind, ok_bind]
          cases fetchValue c how.length v.args with
          | error e => rfl
          | ok found => rfl

/-- The main loop returns what the pieces of the format print. -/
theorem vprintfLoop_eq_ok {fmt : CString} {fuel : Nat} {v : Vprintf} {p : Printer} :
    (∃ w, vprintfLoop fmt fuel v = .ok w ∧ w.printer = p) ↔
      ∃ ps, piecesFrom fmt fuel v.i v.args = .ok ps ∧ printPieces ps v.printer = .ok p := by
  induction fuel generalizing v with
  | zero =>
    rw [vprintfLoop, piecesFrom]
    by_cases more : v.i < fmt.bytes.length
    · simp [more]
    · simp [more, printPieces]
  | succ fuel ih =>
    rw [vprintfLoop, piecesFrom]
    by_cases more : v.i < fmt.bytes.length
    · rw [if_pos more, if_pos more, vprintfStep_eq]
      cases pieceAt fmt v.i v.args with
      | error e => simp [bind, Except.bind]
      | ok found =>
        obtain ⟨piece, i, args⟩ := found
        simp only [ok_bind, bind_eq_ok, Except.ok.injEq]
        constructor
        · rintro ⟨w, ⟨next, ⟨q, appended, same⟩, rest⟩, printed⟩
          subst same
          obtain ⟨ps, parsed, printed⟩ := ih.mp ⟨w, rest, printed⟩
          exact ⟨piece :: ps, ⟨ps, parsed, rfl⟩, bind_eq_ok.mpr ⟨q, appended, printed⟩⟩
        · rintro ⟨all, ⟨ps, parsed, same⟩, printed⟩
          subst same
          obtain ⟨q, appended, printed⟩ := bind_eq_ok.mp printed
          obtain ⟨w, rest, printed⟩ := (ih (v := ⟨i, args, q⟩)).mpr ⟨ps, parsed, printed⟩
          exact ⟨w, ⟨_, ⟨q, appended, rfl⟩, rest⟩, printed⟩
    · simp [more, printPieces]

/-- The result of an `int` operation is its value. -/
theorem checkInt_eq_ok {v w : Int} : checkInt v = .ok w ↔ (-2 ^ 31 ≤ v ∧ v < 2 ^ 31) ∧ v = w := by
  unfold checkInt
  by_cases inRange : -2 ^ 31 ≤ v ∧ v < 2 ^ 31
  · rw [if_pos inRange, Except.ok.injEq]
    exact ⟨fun same => ⟨inRange, same⟩, fun both => both.2⟩
  · rw [if_neg inRange]
    exact ⟨(fun failed => nomatch failed), fun both => absurd both.1 inRange⟩

/-- A piece is printed behind others where it is defined and the counter stays an `int`. -/
theorem Piece.append_eq_ok {piece : Piece} {p q : Printer} (short : piece.text.length < 2 ^ 31)
    (nonneg : 0 ≤ p.chars) :
    piece.append p = .ok q ↔
      piece.Defined ∧ p.chars + (piece.text.length + piece.excess) < 2 ^ 31 ∧
        ⟨p.out ++ piece.text, p.chars + (piece.text.length + piece.excess)⟩ = q := by
  have counts := piece.counts
  rw [append, bind_eq_ok]
  constructor
  · rintro ⟨printed, returned, rest⟩
    obtain ⟨defined, same⟩ := (printed_eq_ok short).mp returned
    subst same
    obtain ⟨chars, checked, same⟩ := bind_eq_ok.mp rest
    obtain ⟨inRange, sum⟩ := checkInt_eq_ok.mp checked
    subst sum
    exact ⟨defined, inRange.2, Except.ok.inj same⟩
  · rintro ⟨defined, upper, same⟩
    have lower := Int.add_nonneg nonneg counts
    have checked := checkInt_eq_ok.mpr ⟨⟨Int.le_trans (by decide) lower, upper⟩, rfl⟩
    exact ⟨_, (printed_eq_ok short).mpr ⟨defined, rfl⟩, bind_eq_ok.mpr ⟨_, checked, congrArg _ same⟩⟩

/-- Pieces are printed where all of them are defined and the counter stays an `int` behind each;
the counter then exceeds the characters by the excess of the pieces. -/
theorem printPieces_eq_ok {ps : List Piece} {p q : Printer} (short : (textOf ps).length < 2 ^ 31)
    (nonneg : 0 ≤ p.chars) (small : p.chars < 2 ^ 31) :
    printPieces ps p = .ok q ↔
      (∀ piece ∈ ps, piece.Defined) ∧
      (∀ before, before <+: ps → p.chars + ((textOf before).length + excessOf before) < 2 ^ 31) ∧
      ⟨p.out ++ textOf ps, p.chars + ((textOf ps).length + excessOf ps)⟩ = q := by
  have noText : textOf [] = [] := rfl
  have noExcess : excessOf [] = 0 := rfl
  induction ps generalizing p with
  | nil =>
    have same : (⟨p.out ++ textOf [], p.chars + ((textOf []).length + excessOf [])⟩ : Printer) = p := by
      rw [noText, noExcess, List.append_nil]
      simp
    rw [printPieces, Except.ok.injEq, same]
    refine ⟨fun same => ⟨(fun piece member => nomatch member), ?_, same⟩, fun all => all.2.2⟩
    intro before isPrefix
    rw [List.prefix_nil.mp isPrefix, noText, noExcess]
    simpa using small
  | cons piece ps ih =>
    have text (ps : List Piece) : textOf (piece :: ps) = piece.text ++ textOf ps := rfl
    have excess (ps : List Piece) : excessOf (piece :: ps) = piece.excess + excessOf ps :=
      List.sum_cons
    have counts := piece.counts
    rw [text, List.length_append] at short
    have ahead (upper : p.chars + (piece.text.length + piece.excess) < 2 ^ 31) :=
      ih (p := ⟨p.out ++ piece.text, p.chars + (piece.text.length + piece.excess)⟩) (by omega)
        (Int.add_nonneg nonneg counts) upper
    have final : (⟨p.out ++ textOf (piece :: ps),
        p.chars + ((textOf (piece :: ps)).length + excessOf (piece :: ps))⟩ : Printer) =
        ⟨p.out ++ piece.text ++ textOf ps, p.chars + (piece.text.length + piece.excess) +
          ((textOf ps).length + excessOf ps)⟩ := by
      rw [text, excess, List.append_assoc, List.length_append]
      congr 1
      omega
    rw [printPieces, bind_eq_ok, final, List.forall_mem_cons]
    constructor
    · rintro ⟨r, appended, rest⟩
      obtain ⟨defined, upper, same⟩ := (Piece.append_eq_ok (by omega) nonneg).mp appended
      subst same
      obtain ⟨others, inRange, same⟩ := (ahead upper).mp rest
      refine ⟨⟨defined, others⟩, ?_, same⟩
      intro before isPrefix
      rcases List.prefix_cons_iff.mp isPrefix with empty | ⟨rest, split, isPrefix⟩
      · rw [empty, noText, noExcess]
        simpa using small
      · have later := inRange rest isPrefix
        rw [split, text, excess, List.length_append]
        dsimp only at later
        omega
    · rintro ⟨⟨defined, others⟩, inRange, same⟩
      have upper := inRange [piece] (List.prefix_cons_iff.mpr (Or.inr ⟨[], rfl, List.nil_prefix⟩))
      rw [text, excess, noText, noExcess, List.append_nil, Int.add_zero] at upper
      refine ⟨_, (Piece.append_eq_ok (by omega) nonneg).mpr ⟨defined, upper, rfl⟩, ?_⟩
      refine (ahead upper).mpr ⟨others, ?_, same⟩
      intro before isPrefix
      have earlier := inRange (piece :: before)
        (List.prefix_cons_iff.mpr (Or.inr ⟨before, rfl, isPrefix⟩))
      rw [text, excess, List.length_append] at earlier
      dsimp only
      omega

/-! ## The format -/

/-- The flags end in front of the end of the format. -/
theorem parseFlags_meets (fmt : CString) {fuel i : Nat} (prevflags : Int32)
    (inside : i < fmt.bytes.length) (enough : fmt.bytes.length ≤ i + fuel) :
    Meets (parseFlags fmt fuel prevflags i) (fun found => i < found.2 ∧ found.2 ≤ fmt.bytes.length)
      (fun e => e = .undefined) := by
  rw [parseFlags_eq]
  exact (readFlags_guards fmt prevflags inside enough).result.mono (fun _ => id) fun _ => False.elim

/-- The width ends in front of the end of the format, unless it overflows. -/
theorem parseWidth_meets (fmt : CString) {fuel i : Nat} (width : Int)
    (inside : i ≤ fmt.bytes.length) (enough : fmt.bytes.length < i + fuel) :
    Meets (parseWidth fmt fuel width i) (fun found => i ≤ found.2 ∧ found.2 ≤ fmt.bytes.length)
      (fun e => e = .undefined) := by
  have guards := (readWidth_guards id fmt width inside enough).result
  refine (parseWidth_eq fmt fuel width i).mono ?_ ?_
  · intro found same
    exact guards.of_ok same
  · rintro e (overflow | same)
    · exact overflow
    · exact (guards.of_error same).elim

/-- The length ends in front of the end of the format. -/
theorem parseLength_meets (fmt : CString) {i : Nat} (inside : i ≤ fmt.bytes.length) :
    Meets (parseLength fmt i) (fun found => i ≤ found.2 ∧ found.2 ≤ fmt.bytes.length)
      (fun e => e = .undefined) := by
  rw [parseLength_eq]
  exact (readLength_guards fmt inside).result.mono (fun _ => id) fun _ => False.elim

/-- A conversion character stands behind its percent sign, at most at the NUL. -/
theorem parseConversion_meets (fmt : CString) {i : Nat} (inside : i < fmt.bytes.length) :
    Meets (parseConversion fmt i) (fun how => i < how.index ∧ how.index ≤ fmt.bytes.length)
      (fun e => e = .undefined) := by
  refine (parseFlags_meets fmt 0 inside (by omega)).bind fun flags behind => ?_
  refine (parseWidth_meets fmt 0 behind.2 (by omega)).bind fun width behindWidth => ?_
  refine (parseLength_meets fmt behindWidth.2).bind fun length behindLength => ?_
  exact ⟨by dsimp only; omega, behindLength.2⟩

/-- A missing argument is undefined. -/
theorem fetchValue_meets (c : UInt8) (length : Length) (args : List VaArg) :
    Meets (fetchValue c length args) (fun _ => True) (fun e => e = .undefined) := by
  have argument : Meets (vaArg args) (fun _ => True) (fun e => e = .undefined) := by
    cases args with
    | nil => rfl
    | cons arg args => trivial
  have number (narrow wide : VaArg × List VaArg → VaArg × List VaArg) :
      Meets (vaArg args >>= fun found => if length = .int then .ok (narrow found) else .ok (wide found))
        (fun _ => True) (fun e => e = .undefined) := by
    refine argument.bind fun found _ => ?_
    by_cases isInt : length = .int
    · rw [if_pos isInt]
      trivial
    · rw [if_neg isInt]
      trivial
  unfold fetchValue
  by_cases isSigned : c = chr 'd' ∨ c = chr 'i'
  · rw [if_pos isSigned]
    exact number _ _
  rw [if_neg isSigned]
  by_cases isUnsigned : c = chr 'u' ∨ c = chr 'x' ∨ c = chr 'X' ∨ c = chr 'o' ∨ c = chr 'c'
  · rw [if_pos isUnsigned]
    exact number _ _
  rw [if_neg isUnsigned]
  by_cases pointer : c = chr 'p'
  · rw [if_pos pointer]
    exact argument
  rw [if_neg pointer]
  by_cases isString : c = chr 's'
  · rw [if_pos isString]
    exact argument
  · rw [if_neg isString]
    trivial

/-- Reading a piece goes on in the format. -/
theorem pieceAt_meets (fmt : CString) {i : Nat} (args : List VaArg)
    (inside : i < fmt.bytes.length) :
    Meets (pieceAt fmt i args) (fun found => i < found.2.1) (fun e => e = .undefined) := by
  obtain ⟨c, read, -⟩ := fmt.get_of_le inside.le
  rw [pieceAt, read, ok_bind]
  by_cases literal : c ≠ chr '%'
  · rw [if_pos literal]
    exact Nat.lt_succ_self i
  · rw [if_neg literal]
    refine (parseConversion_meets fmt inside).bind fun how behind => ?_
    obtain ⟨code, read, -⟩ := fmt.get_of_le behind.2
    rw [read, ok_bind]
    refine (fetchValue_meets code how.length args).bind fun found _ => ?_
    exact Nat.lt_succ_of_lt behind.1

/-- A call of `debug_vprintf` returns what the pieces of its format print. -/
theorem debugVprintf_eq_ok {fmt : CString} {args : List VaArg} {p : Printer} :
    debugVprintf fmt args = .ok p ↔
      ∃ ps, pieces fmt args = .ok ps ∧ printPieces ps ⟨[], 0⟩ = .ok p := by
  rw [debugVprintf, bind_eq_ok]
  simp only [Except.ok.injEq]
  exact vprintfLoop_eq_ok

/-- For every format and arguments with an output below 2^31 characters, `debug_vprintf` and
`debug_printf` return the number of characters that they passed to `debug_putchar` exactly where
the pieces of the format are counted right. -/
theorem debugVprintf_counts (fmt : CString) (args : List VaArg)
    (short : ∀ ps, pieces fmt args = .ok ps → (textOf ps).length < 2 ^ 31) :
    (∃ p, debugVprintf fmt args = .ok p ∧ debugPrintf fmt args = .ok p ∧ p.chars = p.out.length) ↔
      ∃ ps, pieces fmt args = .ok ps ∧ Counted ps := by
  have printed (ps : List Piece) (parsed : pieces fmt args = .ok ps) (p : Printer) :=
    printPieces_eq_ok (q := p) (p := ⟨[], 0⟩) (short ps parsed) (Int.le_refl 0) (by decide)
  constructor
  · rintro ⟨p, returned, -, count⟩
    obtain ⟨ps, parsed, run⟩ := debugVprintf_eq_ok.mp returned
    obtain ⟨defined, inRange, same⟩ := (printed ps parsed p).mp run
    subst same
    dsimp only at inRange count
    refine ⟨ps, parsed, defined, ?_, ?_⟩
    · simpa using inRange
    · rw [List.nil_append] at count
      omega
  · rintro ⟨ps, parsed, counted⟩
    have run := (printed ps parsed _).mpr ⟨counted.defined, by simpa using counted.inRange, rfl⟩
    have returned := debugVprintf_eq_ok.mpr ⟨ps, parsed, run⟩
    refine ⟨_, returned, returned, ?_⟩
    have balanced := counted.balanced
    dsimp only
    rw [List.nil_append]
    omega

/-- The format `%x %s`. -/
def sampleFormat : CString where
  bytes := ['%', 'x', ' ', '%', 's'].map chr
  noNul := by decide
  fits := by decide

/-- Its pieces for a number and a null pointer. -/
def samplePieces : List Piece :=
  [.conversion (chr 'x') ⟨0, 0, .int, 1⟩ ⟨0xbeef, none⟩, .literal (chr ' '),
    .conversion (chr 's') ⟨0, 0, .ptr, 4⟩ ⟨0, none⟩]

/-- They are four digits, a space and the text of a null pointer. -/
theorem samplePieces_length : (textOf samplePieces).length = 11 := by
  have value : signedValue 0xbeef false = 0xbeef := rfl
  have number : (printedInt 16 0 0 false 0xbeef).length = 4 := by
    have base : (wordOfInt 16).toNat = 16 := rfl
    have digits : digitsOf 16 0xbeef = [11, 14, 14, 15] := by norm_num [digitsOf]
    rw [printedInt_plain, base, shownDigits]
    simp [digits]
  have text : textOf samplePieces =
      printedInt 16 0 0 false (signedValue 0xbeef false) ++ chr ' ' :: nullText.bytes := rfl
  rw [text, value, List.length_append, number]
  rfl

/-- A number and a null pointer are counted right. -/
theorem debugVprintf_counts_sample :
    ∃ p, debugVprintf sampleFormat [⟨0xbeef, none⟩, ⟨0, none⟩] = .ok p ∧
      debugPrintf sampleFormat [⟨0xbeef, none⟩, ⟨0, none⟩] = .ok p ∧ p.chars = p.out.length := by
  have parsed : pieces sampleFormat [⟨0xbeef, none⟩, ⟨0, none⟩] = .ok samplePieces := rfl
  have short (ps : List Piece)
      (same : pieces sampleFormat [⟨0xbeef, none⟩, ⟨0, none⟩] = .ok ps) :
      (textOf ps).length < 2 ^ 31 := by
    cases parsed.symm.trans same
    rw [samplePieces_length]
    decide
  apply (debugVprintf_counts sampleFormat [⟨0xbeef, none⟩, ⟨0, none⟩] short).mpr
  have defined (piece : Piece) (member : piece ∈ samplePieces) : piece.Defined ∧ piece.excess = 0 := by
    simp only [samplePieces, List.mem_cons, List.not_mem_nil, or_false] at member
    rcases member with rfl | rfl | rfl
    · exact ⟨⟨by decide, by decide⟩, rfl⟩
    · exact ⟨trivial, rfl⟩
    · exact ⟨⟨fun _ => Or.inl rfl, by decide⟩, rfl⟩
  refine ⟨samplePieces, parsed, fun piece member => (defined piece member).1, ?_, rfl⟩
  intro before isPrefix
  have excess : excessOf before = 0 := by
    apply List.sum_eq_zero
    intro n isExcess
    obtain ⟨piece, member, rfl⟩ := List.mem_map.mp isExcess
    exact (defined piece (isPrefix.subset member)).2
  have length : (textOf before).length ≤ (textOf samplePieces).length :=
    (isPrefix.flatMap Piece.text).length_le
  rw [samplePieces_length] at length
  omega

/-- The format `%%`. -/
def percentFormat : CString where
  bytes := ['%', '%'].map chr
  noNul := by decide
  fits := by decide

/-- One percent sign is counted as 37 characters. -/
theorem percent_miscounted :
    ∃ p, debugVprintf percentFormat [] = .ok p ∧ debugPrintf percentFormat [] = .ok p ∧
      p.out = [chr '%'] ∧ p.chars = 37 ∧ p.chars ≠ p.out.length :=
  ⟨⟨[chr '%'], 37⟩, rfl, rfl, rfl, rfl, by decide⟩

end Symphony
