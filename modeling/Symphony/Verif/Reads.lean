import Symphony.Kernel.Reads

/-!
# The format parser stays in its string

Each of the five places that advance the index does so behind a character that is not the NUL,
so that every read is at most at the NUL, also where a specification is cut off.
-/

namespace Symphony

/-- A format may be read up to its NUL, which is the only one. -/
theorem CString.get_of_le (s : CString) {i : Nat} (inside : i ≤ s.bytes.length) :
    ∃ c, s.get i = .ok c ∧ (c ≠ 0 → i < s.bytes.length) := by
  unfold CString.get
  by_cases last : i = s.bytes.length
  · exact ⟨0, if_pos last, fun nonzero => absurd rfl nonzero⟩
  · have below : i < s.bytes.length := by omega
    refine ⟨s.bytes[i], ?_, fun _ => below⟩
    rw [if_neg last, List.getElem?_eq_getElem below]

/-- A place in a format: the NUL is the last one. -/
def CString.Inside (fmt : CString) (i : Nat) : Prop := i ≤ fmt.bytes.length

/-- A read inside the format returns, and only the NUL is last. -/
theorem CString.read_guards (fmt : CString) {i : Nat} (inside : fmt.Inside i) :
    (fmt.read i).Guards fmt.Inside (fun c => fmt.get i = .ok c ∧ (c ≠ 0 → fmt.Inside (i + 1)))
      (fun _ => False) := by
  obtain ⟨c, read, notLast⟩ := fmt.get_of_le inside
  refine ⟨fun j member => ?_, ?_⟩
  · rw [List.mem_singleton.mp member]
    exact inside
  · change Meets (fmt.get i) _ _
    rw [read]
    exact ⟨rfl, notLast⟩

/-- The flags end behind their percent sign. -/
theorem readFlags_guards (fmt : CString) {fuel i : Nat} (prevflags : Int32)
    (inside : fmt.Inside (i + 1)) (enough : fmt.bytes.length ≤ i + fuel) :
    (readFlags fmt fuel prevflags i).Guards fmt.Inside (fun found => i < found.2 ∧ fmt.Inside found.2)
      (fun _ => False) := by
  induction fuel generalizing i prevflags with
  | zero =>
    unfold CString.Inside at inside
    omega
  | succ fuel ih =>
    rw [readFlags]
    refine (fmt.read_guards inside).bind fun c read => ?_
    by_cases more : prevflags ||| flagBit c ≠ prevflags
    · rw [if_pos more]
      have nonzero : c ≠ 0 := by
        intro zero
        apply more
        rw [zero]
        exact Int32.or_zero
      refine (ih _ (read.2 nonzero) (by omega)).mono fun found bounds => ⟨?_, bounds.2⟩
      omega
    · rw [if_neg more]
      exact .pure ⟨Nat.lt_succ_self i, inside⟩

/-- The width ends at its first character or behind it. -/
theorem readWidth_guards (int : Int → Int) (fmt : CString) {fuel i : Nat} (width : Int)
    (inside : fmt.Inside i) (enough : fmt.bytes.length < i + fuel) :
    (readWidth int fmt fuel width i).Guards fmt.Inside (fun found => i ≤ found.2 ∧ fmt.Inside found.2)
      (fun _ => False) := by
  induction fuel generalizing i width with
  | zero =>
    unfold CString.Inside at inside
    omega
  | succ fuel ih =>
    rw [readWidth]
    refine (fmt.read_guards inside).bind fun c read => ?_
    by_cases digit : isDigit c = true
    · have nonzero : c ≠ 0 := by
        intro zero
        rw [zero] at digit
        exact absurd digit (by decide)
      rw [if_pos digit]
      refine (ih _ (read.2 nonzero) (by omega)).mono fun found bounds => ⟨?_, bounds.2⟩
      omega
    · rw [if_neg digit]
      exact .pure ⟨Nat.le_refl i, inside⟩

/-- The length modifier ends at its first character or behind it; the character behind `h` and
`l` is read, for none of the two is the NUL. -/
theorem readLength_guards (fmt : CString) {i : Nat} (inside : fmt.Inside i) :
    (readLength fmt i).Guards fmt.Inside (fun found => i ≤ found.2 ∧ fmt.Inside found.2)
      (fun _ => False) := by
  rw [readLength]
  refine (fmt.read_guards inside).bind fun c read => ?_
  have character (x : Char) (nonzero : chr x ≠ 0) (same : c = chr x) : fmt.Inside (i + 1) :=
    read.2 (by rw [same]; exact nonzero)
  by_cases isShort : c = chr 'h'
  · have here := character 'h' (by decide) isShort
    rw [if_pos isShort]
    refine (fmt.read_guards here).bind fun next readNext => .pure ?_
    by_cases again : next = chr 'h'
    · rw [if_pos again]
      exact ⟨by dsimp only; omega, readNext.2 (by rw [again]; decide)⟩
    · rw [if_neg again]
      exact ⟨by dsimp only; omega, here⟩
  rw [if_neg isShort]
  by_cases isLong : c = chr 'l'
  · have here := character 'l' (by decide) isLong
    rw [if_pos isLong]
    refine (fmt.read_guards here).bind fun next readNext => .pure ?_
    by_cases again : next = chr 'l'
    · rw [if_pos again]
      exact ⟨by dsimp only; omega, readNext.2 (by rw [again]; decide)⟩
    · rw [if_neg again]
      exact ⟨by dsimp only; omega, here⟩
  rw [if_neg isLong]
  by_cases size : c = chr 'z'
  · rw [if_pos size]
    exact .pure ⟨Nat.le_succ i, character 'z' (by decide) size⟩
  rw [if_neg size]
  by_cases intmax : c = chr 'j'
  · rw [if_pos intmax]
    exact .pure ⟨Nat.le_succ i, character 'j' (by decide) intmax⟩
  rw [if_neg intmax]
  by_cases ptrdiff : c = chr 't'
  · rw [if_pos ptrdiff]
    exact .pure ⟨Nat.le_succ i, character 't' (by decide) ptrdiff⟩
  rw [if_neg ptrdiff]
  by_cases pointer : c = chr 'p' ∨ c = chr 's'
  · rw [if_pos pointer]
    exact .pure ⟨Nat.le_refl i, inside⟩
  · rw [if_neg pointer]
    exact .pure ⟨Nat.le_refl i, inside⟩

/-! ## The parser itself -/

/-- The flags are parsed as they are read. -/
theorem parseFlags_eq (fmt : CString) (fuel : Nat) (prevflags : Int32) (i : Nat) :
    parseFlags fmt fuel prevflags i = (readFlags fmt fuel prevflags i).result := by
  induction fuel generalizing prevflags i with
  | zero => rfl
  | succ fuel ih =>
    rw [parseFlags, readFlags, Recorded.bind_result]
    congr 1
    funext c
    dsimp only
    by_cases more : prevflags ||| flagBit c ≠ prevflags
    · rw [if_pos more, if_pos more, ih]
    · rw [if_neg more, if_neg more]
      rfl

/-- An `int` holds its value, unless it overflows. -/
theorem checkInt_meets (v : Int) : Meets (checkInt v) (fun w => w = v) (fun e => e = .undefined) := by
  unfold checkInt
  by_cases inRange : -2 ^ 31 ≤ v ∧ v < 2 ^ 31
  · rw [if_pos inRange]
    exact rfl
  · rw [if_neg inRange]
    exact rfl

/-- The width is parsed as it is read, until it overflows. -/
theorem parseWidth_eq (fmt : CString) (fuel : Nat) (width : Int) (i : Nat) :
    Meets (parseWidth fmt fuel width i) (fun found => (readWidth id fmt fuel width i).result = .ok found)
      (fun e => e = .undefined ∨ (readWidth id fmt fuel width i).result = .error e) := by
  induction fuel generalizing width i with
  | zero => exact Or.inr rfl
  | succ fuel ih =>
    rw [parseWidth, readWidth, Recorded.bind_result, show (fmt.read i).result = fmt.get i from rfl]
    cases fmt.get i with
    | error e => exact Or.inr rfl
    | ok c =>
      rw [ok_bind, ok_bind]
      by_cases digit : isDigit c = true
      · rw [if_pos digit, if_pos digit]
        refine ((checkInt_meets _).mono (fun _ => id) fun _ => Or.inl).bind fun tens same => ?_
        subst same
        refine ((checkInt_meets _).mono (fun _ => id) fun _ => Or.inl).bind fun sum same => ?_
        subst same
        exact ih _ (i + 1)
      · rw [if_neg digit, if_neg digit]
        exact rfl

/-- The length is parsed as it is read. -/
theorem parseLength_eq (fmt : CString) (i : Nat) : parseLength fmt i = (readLength fmt i).result := by
  rw [parseLength, readLength, Recorded.bind_result]
  congr 1
  funext c
  by_cases isShort : c = chr 'h'
  · rw [if_pos isShort, if_pos isShort, Recorded.bind_result]
    rfl
  rw [if_neg isShort, if_neg isShort]
  by_cases isLong : c = chr 'l'
  · rw [if_pos isLong, if_pos isLong, Recorded.bind_result]
    congr 1
    funext next
    by_cases again : next = chr 'l'
    · rw [if_pos again, if_pos again]
      rfl
    · rw [if_neg again, if_neg again]
      rfl
  rw [if_neg isLong, if_neg isLong]
  simp only [apply_ite Recorded.result]
  rfl

end Symphony
