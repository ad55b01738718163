import Symphony.Verif.Print

/-!
# Runs of the format parser

A run of `debug_vprintf` reads its format up to the NUL at most and ends, whatever its turns
fetch and print: each turn of the main loop goes on in the format.
-/

namespace Symphony

variable {τ : Type}

/-! ## Reads of a run -/

/-- A conversion ends behind its percent sign. -/
theorem readConversion_guards (int : Int → Int) (fmt : CString) {i : Nat}
    (inside : i < fmt.bytes.length) :
    (readConversion int fmt i).Guards fmt.Inside (fun how => i < how.index ∧ fmt.Inside how.index)
      (fun _ => False) := by
  refine (readFlags_guards fmt 0 inside (by omega)).bind fun flags behind => ?_
  refine (readWidth_guards int fmt 0 behind.2 (Nat.lt_add_left _ (Nat.lt_succ_self _))).bind
    fun width behindWidth => ?_
  refine (readLength_guards fmt behindWidth.2).bind fun length behindLength => .pure ?_
  exact ⟨by dsimp only; omega, behindLength.2⟩

/-- A turn of the main loop goes on in the format. -/
theorem readTurn_guards (effects : Effects τ) (fmt : CString) {i : Nat} (t : τ)
    (inside : i < fmt.bytes.length) :
    (readTurn effects fmt i t).Guards fmt.Inside (fun found => i < found.1) (fun _ => False) := by
  refine (fmt.read_guards inside.le).bind fun c _ => ?_
  by_cases literal : c ≠ chr '%'
  · rw [if_pos literal]
    exact .pure (Nat.lt_succ_self i)
  · rw [if_neg literal]
    refine (readConversion_guards effects.int fmt inside).bind fun how behind => ?_
    refine (fmt.read_guards behind.2).bind fun code _ => .pure ?_
    exact Nat.lt_succ_of_lt behind.1

/-- As many turns as the format has characters end the main loop. -/
theorem readLoop_guards (effects : Effects τ) (fmt : CString) {fuel i : Nat} (t : τ)
    (enough : fmt.bytes.length ≤ i + fuel) :
    (readLoop effects fmt fuel (i, t)).Guards fmt.Inside (fun found => fmt.bytes.length ≤ found.1)
      (fun _ => False) := by
  induction fuel generalizing i t with
  | zero =>
    rw [readLoop, if_neg (by omega)]
    exact .pure enough
  | succ fuel ih =>
    rw [readLoop]
    by_cases more : i < fmt.bytes.length
    · rw [if_pos more]
      refine (readTurn_guards effects fmt t more).bind fun found behind => ?_
      exact ih found.2 (by omega)
    · rw [if_neg more]
      exact .pure (Nat.le_of_not_lt more)

/-! ## The effects of the code -/

/-- What a turn of `debug_vprintf` does with the arguments and the output, where this is defined. -/
def printing : Effects (List VaArg × Printer) where
  int v := v
  literal c t := (t.1, t.2.count c)
  conversion c how t :=
    match fetchValue c how.length t.1 with
    | .error _ => t
    | .ok (value, args) =>
      match printConversion c how value with
      | .error _ => t
      | .ok printed => (args, ⟨t.2.out ++ printed.out, t.2.chars + printed.chars⟩)

/-- A parsed conversion is the one that is read. -/
theorem parseConversion_reads {fmt : CString} {i : Nat} {how : Conversion}
    (parsed : parseConversion fmt i = .ok how) : (readConversion id fmt i).result = .ok how := by
  rw [parseConversion, parseFlags_eq] at parsed
  rw [readConversion, Recorded.bind_result]
  obtain ⟨flags, found, parsed⟩ := bind_eq_ok.mp parsed
  obtain ⟨width, foundWidth, parsed⟩ := bind_eq_ok.mp parsed
  rw [found, ok_bind, Recorded.bind_result, (parseWidth_eq _ _ _ _).of_ok foundWidth, ok_bind,
    Recorded.bind_result, ← parseLength_eq]
  exact parsed

/-- A turn that returns is the turn that is read. -/
theorem vprintfStep_reads {fmt : CString} {v w : Vprintf} (returned : vprintfStep fmt v = .ok w) :
    (readTurn printing fmt v.i (v.args, v.printer)).result = .ok (w.i, (w.args, w.printer)) := by
  rw [vprintfStep] at returned
  rw [readTurn, Recorded.bind_result, show (fmt.read v.i).result = fmt.get v.i from rfl]
  obtain ⟨c, read, returned⟩ := bind_eq_ok.mp returned
  rw [read, ok_bind]
  by_cases literal : c ≠ chr '%'
  · rw [if_pos literal] at returned ⊢
    obtain ⟨chars, checked, same⟩ := bind_eq_ok.mp returned
    obtain ⟨-, sum⟩ := checkInt_eq_ok.mp checked
    subst sum
    cases same
    rfl
  · rw [if_neg literal] at returned ⊢
    obtain ⟨how, parsed, returned⟩ := bind_eq_ok.mp returned
    obtain ⟨code, readCode, returned⟩ := bind_eq_ok.mp returned
    obtain ⟨found, fetched, returned⟩ := bind_eq_ok.mp returned
    obtain ⟨printed, ran, returned⟩ := bind_eq_ok.mp returned
    obtain ⟨chars, checked, same⟩ := bind_eq_ok.mp returned
    obtain ⟨-, sum⟩ := checkInt_eq_ok.mp checked
    subst sum
    cases same
    rw [Recorded.bind_result, show (readConversion printing.int fmt v.i).result = .ok how from
      parseConversion_reads parsed, ok_bind, Recorded.bind_result,
      show (fmt.read how.index).result = fmt.get how.index from rfl, readCode, ok_bind]
    simp only [printing, fetched, ran]
    rfl

/-- A run that returns is the run that is read. -/
theorem vprintfLoop_reads {fmt : CString} {fuel : Nat} {v w : Vprintf}
    (returned : vprintfLoop fmt fuel v = .ok w) :
    (readLoop printing fmt fuel (v.i, (v.args, v.printer))).result =
      .ok (w.i, (w.args, w.printer)) := by
  induction fuel generalizing v with
  | zero =>
    rw [vprintfLoop] at returned
    rw [readLoop]
    by_cases more : v.i < fmt.bytes.length
    · rw [if_pos more] at returned
      cases returned
    · rw [if_neg more] at returned ⊢
      cases returned
      rfl
  | succ fuel ih =>
    rw [vprintfLoop] at returned
    rw [readLoop]
    by_cases more : v.i < fmt.bytes.length
    · rw [if_pos more] at returned ⊢
      obtain ⟨u, turn, rest⟩ := bind_eq_ok.mp returned
      rw [Recorded.bind_result, vprintfStep_reads turn, ok_bind]
      exact ih rest
    · rw [if_neg more] at returned ⊢
      cases returned
      rfl

/-! ## Termination -/

/-- An integer is printed, or its negation is undefined. -/
theorem debugPrintInt_meets {base : Int32} (isBase : IsBase base) (n : UInt64) (flags : Int32)
    (width : Int) (sign upper : Bool) :
    Meets (debugPrintInt n flags width base sign upper) (fun _ => True) (fun e => e = .undefined) := by
  rw [debugPrintInt_eq isBase]
  by_cases overflow : signedValue n sign = -2 ^ 63
  · rw [if_pos overflow]
    exact rfl
  · rw [if_neg overflow]
    trivial

/-- A conversion is printed, or it is undefined. -/
theorem printConversion_meets (c : UInt8) (how : Conversion) (value : VaArg) :
    Meets (printConversion c how value) (fun _ => True) (fun e => e = .undefined) := by
  have isTen : IsBase 10 := Or.inr (Or.inl rfl)
  have isHex : IsBase 16 := Or.inr (Or.inr rfl)
  unfold printConversion
  dsimp only
  by_cases percent : c = chr '%'
  · rw [if_pos percent]
    trivial
  rw [if_neg percent]
  by_cases isSigned : c = chr 'd' ∨ c = chr 'i'
  · rw [if_pos isSigned]
    exact debugPrintInt_meets isTen ..
  rw [if_neg isSigned]
  by_cases decimal : c = chr 'u'
  · rw [if_pos decimal]
    exact debugPrintInt_meets isTen ..
  rw [if_neg decimal]
  by_cases lower : c = chr 'x'
  · rw [if_pos lower]
    exact debugPrintInt_meets isHex ..
  rw [if_neg lower]
  by_cases capital : c = chr 'X'
  · rw [if_pos capital]
    exact debugPrintInt_meets isHex ..
  rw [if_neg capital]
  by_cases pointer : c = chr 'p'
  · rw [if_pos pointer]
    exact debugPrintInt_meets isHex ..
  rw [if_neg pointer]
  by_cases octal : c = chr 'o'
  · rw [if_pos octal]
    exact debugPrintInt_meets (Or.inl rfl) ..
  rw [if_neg octal]
  by_cases isString : c = chr 's'
  · rw [if_pos isString]
    by_cases null : value.slot = 0
    · rw [if_pos null]
      trivial
    · rw [if_neg null]
      cases value.text with
      | none => exact rfl
      | some str => trivial
  rw [if_neg isString]
  by_cases isChar : c = chr 'c'
  · rw [if_pos isChar]
    trivial
  · rw [if_neg isChar]
    trivial

/-- A piece is printed, or it is undefined. -/
theorem Piece.append_meets (piece : Piece) (p : Printer) :
    Meets (piece.append p) (fun _ => True) (fun e => e = .undefined) := by
  have printed : Meets piece.printed (fun _ => True) (fun e => e = .undefined) := by
    cases piece with
    | literal c => trivial
    | conversion c how value => exact printConversion_meets c how value
  exact printed.bind fun q _ => (checkInt_meets _).bind fun chars _ => trivial

/-- A turn of the main loop goes on in the format, or it is undefined. -/
theorem vprintfStep_meets (fmt : CString) {v : Vprintf} (more : v.i < fmt.bytes.length) :
    Meets (vprintfStep fmt v) (fun w => v.i < w.i) (fun e => e = .undefined) := by
  rw [vprintfStep_eq]
  exact (pieceAt_meets fmt v.args more).bind fun found behind =>
    (found.1.append_meets v.printer).bind fun _ _ => behind

/-- The main loop ends, or a turn is undefined. -/
theorem vprintfLoop_meets (fmt : CString) {fuel : Nat} {v : Vprintf}
    (enough : fmt.bytes.length ≤ v.i + fuel) :
    Meets (vprintfLoop fmt fuel v) (fun _ => True) (fun e => e = .undefined) := by
  induction fuel generalizing v with
  | zero =>
    rw [vprintfLoop, if_neg (by omega)]
    trivial
  | succ fuel ih =>
    rw [vprintfLoop]
    by_cases more : v.i < fmt.bytes.length
    · rw [if_pos more]
      exact (vprintfStep_meets fmt more).bind fun w behind => ih (by omega)
    · rw [if_neg more]
      trivial

/-- For every format and whatever the turns do, every index read is at most at the NUL, the run
ends, and every turn of the main loop ends at a larger index. The run of `debug_vprintf` is such
a run where it is defined, and it always ends. -/
theorem debugVprintf_inside (fmt : CString) :
    (∀ (τ : Type) (effects : Effects τ) (t : τ),
      (∀ i ∈ (readVprintf effects fmt t).reads, i ≤ (strlen fmt).toNat) ∧
      (∃ found, (readVprintf effects fmt t).result = .ok found) ∧
      ∀ i u, i < (strlen fmt).toNat → ∃ found, (readTurn effects fmt i u).result = .ok found ∧
        i < found.1) ∧
    ∀ args, debugVprintf fmt args ≠ .error .diverges ∧
      ∀ p, debugVprintf fmt args = .ok p → ∃ i rest,
        (readVprintf printing fmt (args, ⟨[], 0⟩)).result = .ok (i, (rest, p)) := by
  have length : (strlen fmt).toNat = fmt.bytes.length := toNat_ofNat_of_fits fmt.fits
  rw [length]
  refine ⟨fun τ effects t => ?_, fun args => ⟨?_, ?_⟩⟩
  · have guards : (readLoop effects fmt fmt.bytes.length (0, t)).Guards fmt.Inside
        (fun found => fmt.bytes.length ≤ found.1) (fun _ => False) :=
      readLoop_guards effects fmt t (by omega)
    obtain ⟨found, returned, -⟩ := guards.result.returns
    refine ⟨guards.reads, ⟨found, returned⟩, fun i u inside => ?_⟩
    exact (readTurn_guards effects fmt u inside).result.returns
  · intro diverged
    have run := vprintfLoop_meets fmt (v := ⟨0, args, ⟨[], 0⟩⟩) (Nat.le_add_left _ _)
    have ends : Meets (debugVprintf fmt args) (fun _ => True) (fun e => e = .undefined) :=
      run.bind fun _ _ => trivial
    exact nomatch ends.of_error diverged
  · intro p returned
    obtain ⟨w, run, same⟩ := bind_eq_ok.mp returned
    cases same
    exact ⟨w.i, w.args, vprintfLoop_reads run⟩

end Symphony
