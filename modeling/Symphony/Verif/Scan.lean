import Symphony.Verif.Template

/-!
# Reading printed text back

A reader that knows the template of a text cuts it into fields: a field goes up to the character
that the template has behind it. The reader finds the values that were printed, provided that no
field contains that character.
-/

namespace Symphony

/-! ## Numbers -/

/-- The digit characters of a base. -/
def digitChars (base : Nat) (upper : Bool) : List UInt8 :=
  (List.range base).map (digitChar upper)

/-- The number in a field: that of its digits, negative behind a minus. -/
def readNumber (base : Nat) (upper : Bool) (field : List UInt8) : Int :=
  let digits := field.filter fun x => x ∈ digitChars base upper
  let v : Int := valueOf base (digits.map (digitOfChar upper))
  if chr '-' ∈ field then -v else v

/-- Zeros in front of a number do not change it. -/
theorem valueOf_zeros (base zeros : Nat) (digits : List Nat) :
    valueOf base (List.replicate zeros 0 ++ digits) = valueOf base digits := by
  induction zeros with
  | zero => rfl
  | succ zeros ih =>
    rw [List.replicate_succ, List.cons_append, ← ih]
    change (List.replicate zeros 0 ++ digits).foldl _ (0 * base + 0) = _
    rw [Nat.zero_mul]
    rfl

/-- The digits of a number are digit characters. -/
theorem mem_digitChars {base d : Nat} (upper : Bool) (small : d < base) :
    digitChar upper d ∈ digitChars base upper :=
  List.mem_map_of_mem (List.mem_range.mpr small)

/-- Signs, spaces and the letters of the prefixes are no digits; the zero is one. -/
theorem digitChars_others {base : Int32} (isBase : IsBase base) (upper : Bool) :
    (∀ x ∈ [chr '-', chr '+', chr ' ', chr 'x', chr 'X'],
      x ∉ digitChars (wordOfInt base).toNat upper) ∧
      chr '0' ∈ digitChars (wordOfInt base).toNat upper := by
  rcases isBase with rfl | rfl | rfl <;> cases upper <;> decide +kernel

/-- The parts in front of the padding have no digits but the zero of a prefix. -/
theorem filter_head {base : Int32} (isBase : IsBase base) (upper : Bool) (v : Int) (flags : Int32) :
    ∃ zeros, (signChars v flags ++ baseChars base flags upper).filter
      (fun x => x ∈ digitChars (wordOfInt base).toNat upper) = List.replicate zeros (chr '0') := by
  obtain ⟨others, zero⟩ := digitChars_others isBase upper
  have minus := others (chr '-') (by decide)
  have plus := others (chr '+') (by decide)
  have space := others (chr ' ') (by decide)
  have lower := others (chr 'x') (by decide)
  have capital := others (chr 'X') (by decide)
  have noSign : (signChars v flags).filter
      (fun x => x ∈ digitChars (wordOfInt base).toNat upper) = [] := by
    unfold signChars
    split_ifs <;> simp [minus, plus, space]
  rw [List.filter_append, noSign, List.nil_append]
  unfold baseChars
  split_ifs
  · exact ⟨1, by simp [zero]⟩
  · exact ⟨1, by simp [zero, capital]⟩
  · exact ⟨1, by simp [zero, lower]⟩
  · exact ⟨0, rfl⟩

/-- Padding has no digits but zeros, and none at all if it consists of spaces. -/
theorem filter_fill {base : Int32} (isBase : IsBase base) (upper : Bool) (width : Int)
    (flags : Int32) (digits : Nat) :
    ∃ zeros, (fillChars width flags digits).filter
        (fun x => x ∈ digitChars (wordOfInt base).toNat upper) = List.replicate zeros (chr '0') ∧
      (flags &&& prependZeroes = 0 → zeros = 0) := by
  obtain ⟨others, zero⟩ := digitChars_others isBase upper
  have space := others (chr ' ') (by decide)
  unfold fillChars
  by_cases zeroes : flags &&& prependZeroes = 0
  · exact ⟨0, by simp [zeroes, space], fun _ => rfl⟩
  · exact ⟨(width - digits).toNat, by simp [zeroes, zero], fun none => absurd none zeroes⟩

/-- A minus is printed for negative numbers only. -/
theorem minus_mem_printedInt {base : Int32} (isBase : IsBase base) (flags : Int32) (width : Int)
    (upper : Bool) (v : Int) : chr '-' ∈ printedInt base flags width upper v ↔ v < 0 := by
  have two : 2 ≤ (wordOfInt base).toNat ∧ (wordOfInt base).toNat ≤ 16 := by
    rcases isBase with rfl | rfl | rfl <;> decide
  have noDigit : chr '-' ∉ shownDigits (wordOfInt base).toNat v.natAbs upper := by
    intro member
    obtain ⟨d, low, same⟩ := List.mem_map.mp member
    exact (digitOfChar_digitChar upper
      (Nat.lt_of_lt_of_le (lt_of_mem_lowDigits (by omega) low) two.2)).2 same
  have noFill (digits : Nat) : chr '-' ∉ fillChars width flags digits := by
    intro member
    have same := List.eq_of_mem_replicate member
    split_ifs at same
    · exact absurd same (by decide)
    · exact absurd same (by decide)
  have noPrefix : chr '-' ∉ baseChars base flags upper := by
    unfold baseChars
    cases upper <;> split_ifs <;> decide
  have sign : chr '-' ∈ signChars v flags ↔ v < 0 := by
    unfold signChars
    by_cases minus : v < 0
    · simp [minus]
    · rw [if_neg minus]
      simp only [minus, iff_false]
      split_ifs <;> decide
  unfold printedInt
  simp only [List.mem_append, sign, noPrefix, noDigit, or_false]
  split_ifs <;> simp [noFill]

/-- A printed number is read back, whatever its flags and its width are, unless zeros stand behind
its digits, and provided that its digits are shown in their order. -/
theorem readNumber_printedInt {base : Int32} (isBase : IsBase base) {flags : Int32} (width : Int)
    (upper : Bool) {v : Int}
    (order : ¬ (flags &&& leftAlign ≠ 0 ∧ flags &&& prependZeroes ≠ 0))
    (fits : reversal (wordOfInt base).toNat v.natAbs < 2 ^ 64) :
    readNumber (wordOfInt base).toNat upper (printedInt base flags width upper v) = v := by
  have bounds : 2 ≤ (wordOfInt base).toNat ∧ (wordOfInt base).toNat ≤ 16 := by
    rcases isBase with rfl | rfl | rfl <;> decide
  obtain ⟨two, hex⟩ := bounds
  have below (d : Nat) (member : d ∈ digitsOf (wordOfInt base).toNat v.natAbs) :
      d < (wordOfInt base).toNat := lt_of_mem_digitsOf two member
  have shown := (shownDigits_eq_iff two hex upper v.natAbs).mpr fits
  obtain ⟨first, head⟩ := filter_head isBase upper v flags
  obtain ⟨second, fill, none⟩ :=
    filter_fill isBase upper width flags (digitsOf (wordOfInt base).toNat v.natAbs).length
  have all : (shownDigits (wordOfInt base).toNat v.natAbs upper).filter
      (fun x => x ∈ digitChars (wordOfInt base).toNat upper) =
        (digitsOf (wordOfInt base).toNat v.natAbs).map (digitChar upper) := by
    rw [shown, List.filter_eq_self]
    intro x member
    obtain ⟨d, digit, rfl⟩ := List.mem_map.mp member
    exact decide_eq_true (mem_digitChars upper (below d digit))
  have zeros : ∃ zeros, (printedInt base flags width upper v).filter
      (fun x => x ∈ digitChars (wordOfInt base).toNat upper) =
        List.replicate zeros (chr '0') ++
          (digitsOf (wordOfInt base).toNat v.natAbs).map (digitChar upper) := by
    unfold printedInt
    dsimp only
    rw [List.filter_append, List.filter_append, List.filter_append, head, all]
    by_cases left : flags &&& leftAlign = 0
    · rw [if_pos left, if_neg (not_not_intro left), fill]
      exact ⟨first + second, by rw [List.filter_nil, List.append_nil, List.replicate_add]⟩
    · have spaces : flags &&& prependZeroes = 0 := by
        by_contra zeroes
        exact order ⟨left, zeroes⟩
      rw [if_neg left, if_pos left, fill, none spaces]
      exact ⟨first, by simp⟩
  obtain ⟨count, zeros⟩ := zeros
  have zero : digitOfChar upper (chr '0') = 0 := by cases upper <;> decide
  have sixteen (d : Nat) (member : d ∈ digitsOf (wordOfInt base).toNat v.natAbs) : d < 16 :=
    Nat.lt_of_lt_of_le (below d member) hex
  unfold readNumber
  dsimp only
  rw [zeros, List.map_append, List.map_replicate, zero, map_digitOfChar upper sixteen,
    valueOf_zeros, valueOf_digitsOf two]
  by_cases minus : v < 0
  · rw [if_pos ((minus_mem_printedInt isBase flags width upper v).mpr minus)]
    omega
  · rw [if_neg (mt (minus_mem_printedInt isBase flags width upper v).mp minus)]
    omega

/-! ## Fields -/

/-- What a reader finds in the place of a conversion: a number or characters. -/
inductive Shown where
  | number (v : Int)
  | text (chars : List UInt8)
deriving DecidableEq

/-- The conversions that print a number: those of integers, and that of pointers. -/
def numberFormat (c : UInt8) : Option IntFormat :=
  if c = chr 'p' then some ⟨16, false, true⟩ else intFormat c

/-- The value in the field of a conversion. -/
def readField (c : UInt8) (field : List UInt8) : Shown :=
  match numberFormat c with
  | some f => .number (readNumber (wordOfInt f.base).toNat f.upper field)
  | none => .text field

/-- A number is printed in one of the three bases. -/
theorem isBase_of_numberFormat {c : UInt8} {f : IntFormat} (number : numberFormat c = some f) :
    IsBase f.base := by
  unfold numberFormat intFormat at number
  split_ifs at number
  all_goals
    obtain rfl := Option.some.inj number
    simp [IsBase]

/-- Text of a conversion that prints a number. -/
theorem Piece.text_number {c : UInt8} {f : IntFormat} (number : numberFormat c = some f)
    (how : Conversion) (value : VaArg) :
    (Piece.conversion c how value).text =
      printedInt f.base how.flags how.width f.upper (signedValue value.slot f.sign) := by
  unfold numberFormat intFormat at number
  by_cases pointer : c = chr 'p'
  · subst pointer
    cases number
    rfl
  · rw [if_neg pointer] at number
    split_ifs at number with signed unsigned lower capital octal
    · obtain rfl := Option.some.inj number
      rcases signed with rfl | rfl <;> rfl
    · obtain rfl := Option.some.inj number
      subst unsigned
      rfl
    · obtain rfl := Option.some.inj number
      subst lower
      rfl
    · obtain rfl := Option.some.inj number
      subst capital
      rfl
    · obtain rfl := Option.some.inj number
      subst octal
      rfl

namespace Piece

/-- What a reader finds for a piece; characters of the format are not reported. -/
def shown : Piece → Option Shown
  | literal _ => none
  | conversion c how value => some (match numberFormat c with
    | some f => .number (signedValue value.slot f.sign)
    | none => .text (conversion c how value).text)

/-- The text of a piece can be read: a number has its digits in their order and no zeros behind
them. -/
def Readable : Piece → Prop
  | literal _ => True
  | conversion c how value => ∀ f, numberFormat c = some f →
    ¬ (how.flags &&& leftAlign ≠ 0 ∧ how.flags &&& prependZeroes ≠ 0) ∧
      reversal (wordOfInt f.base).toNat (signedValue value.slot f.sign).natAbs < 2 ^ 64

/-- The text of a conversion ends in front of the pieces behind it: there are none, or the first
one is a character that the text does not contain. -/
def EndsBefore : Piece → List Piece → Prop
  | literal _, _ => True
  | conversion _ _ _, [] => True
  | conversion c how value, literal d :: _ => d ∉ (conversion c how value).text
  | conversion _ _ _, conversion _ _ _ :: _ => False

/-- The field of a readable conversion has its value. -/
theorem readField_text {c : UInt8} {how : Conversion} {value : VaArg}
    (readable : (conversion c how value).Readable) :
    some (readField c (conversion c how value).text) = (conversion c how value).shown := by
  dsimp only [readField, shown]
  cases number : numberFormat c with
  | none => rfl
  | some f =>
    obtain ⟨order, fits⟩ := readable f number
    dsimp only
    rw [text_number number, readNumber_printedInt (isBase_of_numberFormat number) how.width f.upper
      order fits]

end Piece

/-- Every piece is defined, can be read, and ends in front of the next one. -/
def Legible : List Piece → Prop
  | [] => True
  | piece :: rest => piece.Defined ∧ piece.Readable ∧ piece.EndsBefore rest ∧ Legible rest

/-- Legible pieces are defined. -/
theorem Legible.defined {ps : List Piece} (legible : Legible ps) : ∀ piece ∈ ps, piece.Defined := by
  induction ps with
  | nil =>
    intro piece member
    cases member
  | cons first ps ih =>
    intro piece member
    rcases List.mem_cons.mp member with rfl | later
    · exact legible.1
    · exact ih legible.2.2.2 piece later

/-! ## Texts -/

/-- The characters of a text in front of the first segment: up to its character, or all of it if
there are no more segments. -/
def untilNext : List Segment → List UInt8 → List UInt8
  | .plain d :: _, text => text.takeWhile (· ≠ d)
  | _, text => text

/-- Reading a text by the segments of its template. -/
def scan : List Segment → List UInt8 → Option (List Shown)
  | [], [] => some []
  | [], _ :: _ => none
  | .plain _ :: _, [] => none
  | .plain c :: segments, x :: text => if x = c then scan segments text else none
  | .conversion _ _ _ c :: segments, text =>
    let field := untilNext segments text
    (scan segments (text.drop field.length)).map (readField c field :: ·)

/-- A segment and its piece are characters or conversions both. -/
theorem Segment.piece_eq_ok {segment : Segment} {args left : List VaArg} {piece : Piece}
    (asked : segment.piece args = .ok (piece, left)) :
    (∃ c, segment = plain c ∧ piece = .literal c ∧ left = args) ∨
      ∃ flags width m c value, segment = conversion flags width m c ∧
        piece = .conversion c (asks flags width m c) value := by
  cases segment with
  | plain c =>
    cases asked
    exact Or.inl ⟨c, rfl, rfl, rfl⟩
  | conversion flags width m c =>
    right
    rw [Segment.piece] at asked
    cases fetched : fetchValue c (asks flags width m c).length args with
    | error e =>
      rw [fetched] at asked
      cases asked
    | ok found =>
      rw [fetched] at asked
      cases asked
      exact ⟨flags, width, m, c, found.1, rfl, rfl⟩

/-- The pieces of some segments are that of the first one and those of the others. -/
theorem Segment.pieces_cons_eq_ok {segment : Segment} {segments : List Segment} {args : List VaArg}
    {ps : List Piece} (asked : Segment.pieces (segment :: segments) args = .ok ps) :
    ∃ piece left rest, segment.piece args = .ok (piece, left) ∧
      Segment.pieces segments left = .ok rest ∧ ps = piece :: rest := by
  rw [Segment.pieces] at asked
  cases head : segment.piece args with
  | error e =>
    rw [head] at asked
    cases asked
  | ok found =>
    rw [head, ok_bind] at asked
    dsimp only at asked
    cases tail : Segment.pieces segments found.2 with
    | error e =>
      rw [tail] at asked
      cases asked
    | ok rest =>
      rw [tail] at asked
      cases asked
      exact ⟨found.1, found.2, rest, rfl, tail, rfl⟩

/-- Every segment is one piece. -/
theorem Segment.length_pieces {segments : List Segment} {args : List VaArg} {ps : List Piece}
    (asked : Segment.pieces segments args = .ok ps) : ps.length = segments.length := by
  induction segments generalizing args ps with
  | nil =>
    cases asked
    rfl
  | cons segment segments ih =>
    obtain ⟨piece, left, rest, -, later, rfl⟩ := Segment.pieces_cons_eq_ok asked
    rw [List.length_cons, List.length_cons, ih later]

/-- The field of a conversion is its text. -/
theorem untilNext_text {segments : List Segment} {args : List VaArg} {ps : List Piece}
    (asked : Segment.pieces segments args = .ok ps) {piece : Piece}
    (conversion : ∃ c how value, piece = .conversion c how value) (ends : piece.EndsBefore ps) :
    untilNext segments (piece.text ++ textOf ps) = piece.text := by
  obtain ⟨c, how, value, rfl⟩ := conversion
  cases segments with
  | nil =>
    cases asked
    exact List.append_nil _
  | cons segment segments =>
    obtain ⟨next, left, rest, first, -, rfl⟩ := Segment.pieces_cons_eq_ok asked
    rcases Segment.piece_eq_ok first with ⟨d, rfl, rfl, -⟩ | ⟨_, _, _, _, _, -, rfl⟩
    · have absent : d ∉ (Piece.conversion c how value).text := ends
      have all : ∀ x ∈ (Piece.conversion c how value).text, decide (x ≠ d) = true := by
        intro x member
        exact decide_eq_true fun same => absent (same ▸ member)
      change List.takeWhile (fun x => decide (x ≠ d)) (_ ++ d :: textOf rest) = _
      rw [List.takeWhile_append_of_pos all, List.takeWhile_cons_of_neg (by simp), List.append_nil]
    · exact absurd ends id

/-- Scanning undoes printing: from the text of legible pieces, a reader that knows the segments
finds the values that were printed. -/
theorem scan_textOf {segments : List Segment} {args : List VaArg} {ps : List Piece}
    (asked : Segment.pieces segments args = .ok ps) (legible : Legible ps) :
    scan segments (textOf ps) = some (ps.filterMap Piece.shown) := by
  induction segments generalizing args ps with
  | nil =>
    cases asked
    rfl
  | cons segment segments ih =>
    obtain ⟨piece, left, rest, first, later, rfl⟩ := Segment.pieces_cons_eq_ok asked
    obtain ⟨-, readable, ends, legible⟩ := legible
    have scanned := ih later legible
    rcases Segment.piece_eq_ok first with ⟨c, rfl, rfl, -⟩ | ⟨flags, width, m, c, value, rfl, rfl⟩
    · change scan (Segment.plain c :: segments) (c :: textOf rest) = _
      rw [scan, if_pos rfl, scanned]
      rfl
    · have field := untilNext_text later ⟨c, _, value, rfl⟩ ends
      have text : textOf (Piece.conversion c (Segment.asks flags width m c) value :: rest) =
          (Piece.conversion c (Segment.asks flags width m c) value).text ++ textOf rest := rfl
      rw [text, scan, field, List.drop_left, scanned,
        List.filterMap_cons_some (Piece.readField_text readable).symm]
      rfl

/-! ## Texts that show words and strings -/

/-- A word of 64 bits in base 16. -/
def wordSegment (flags width : List UInt8) : Segment := .conversion flags width .ll (chr 'x')

/-- A string. -/
def stringSegment : Segment := .conversion [] [] .none (chr 's')

/-- Some segments print their arguments as a text in which a reader finds these values. -/
def Shows (segments : List Segment) (args : List VaArg) (shown : List Shown) (text : List UInt8) :
    Prop :=
  ∃ ps, Segment.pieces segments args = .ok ps ∧ Legible ps ∧ ps.filterMap Piece.shown = shown ∧
    textOf ps = text

/-- The character behind a field is not in the field. -/
def Stops : List Segment → List UInt8 → Prop
  | [], _ => True
  | .plain d :: _, field => d ∉ field
  | .conversion _ _ _ _ :: _, _ => False

instance : ∀ segments field, Decidable (Stops segments field)
  | [], _ => instDecidableTrue
  | .plain d :: _, field => inferInstanceAs (Decidable (d ∉ field))
  | .conversion _ _ _ _ :: _, _ => instDecidableFalse

/-- The characters that a word may be printed with. -/
def wordChars (flags width : List UInt8) : List UInt8 :=
  digitChars 16 false ++ [chr '0', chr 'x'] ++
    (if flagsOf 0 flags &&& plusForPositive ≠ 0 then [chr '+'] else []) ++
    (if flagsOf 0 flags &&& spaceForPositive ≠ 0 then [chr ' '] else []) ++
    if flagsOf 0 flags &&& prependZeroes = 0 ∧ 0 < decimal width then [chr ' '] else []

/-- A word is printed with these characters. -/
theorem mem_wordChars {flags width : List UInt8} {w : Int} (narrow : w ≤ decimal width) (v : UInt64)
    {x : UInt8} (member : x ∈ printedInt 16 (flagsOf 0 flags) w false (signedValue v false)) :
    x ∈ wordChars flags width := by
  have nonneg : ¬ signedValue v false < 0 := by
    change ¬ ((v.toNat : Int) < 0)
    omega
  simp only [wordChars, List.mem_append]
  simp only [printedInt, List.mem_append] at member
  have padding (fill : x ∈ fillChars w (flagsOf 0 flags)
      (digitsOf (wordOfInt 16).toNat (signedValue v false).natAbs).length) :
      x ∈ [chr '0', chr 'x'] ∨
        x ∈ if flagsOf 0 flags &&& prependZeroes = 0 ∧ 0 < decimal width then [chr ' '] else [] := by
    obtain ⟨some, same⟩ := List.mem_replicate.mp fill
    by_cases zeroes : flagsOf 0 flags &&& prependZeroes = 0
    · rw [if_neg (not_not_intro zeroes)] at same
      rw [if_pos ⟨zeroes, by omega⟩]
      exact Or.inr (List.mem_singleton.mpr same)
    · rw [if_pos zeroes] at same
      exact Or.inl (same ▸ List.mem_cons_self)
  have filled {left : Prop} [Decidable left] (fill : x ∈ if left then
      fillChars w (flagsOf 0 flags) (digitsOf (wordOfInt 16).toNat (signedValue v false).natAbs).length
      else []) : x ∈ [chr '0', chr 'x'] ∨
        x ∈ if flagsOf 0 flags &&& prependZeroes = 0 ∧ 0 < decimal width then [chr ' '] else [] := by
    by_cases here : left
    · exact padding (by rwa [if_pos here] at fill)
    · rw [if_neg here] at fill
      cases fill
  rcases member with (((sign | base) | fill) | digit) | fill
  · unfold signChars at sign
    rw [if_neg nonneg] at sign
    split_ifs at sign with plus space
    · exact Or.inl (Or.inl (Or.inr (by rwa [if_pos plus])))
    · exact Or.inl (Or.inr (by rwa [if_pos space]))
    · cases sign
  · have hex : baseChars 16 (flagsOf 0 flags) false =
        if flagsOf 0 flags &&& specialHash ≠ 0 then [chr '0', chr 'x'] else [] := by
      simp [baseChars]
    rw [hex] at base
    by_cases hash : flagsOf 0 flags &&& specialHash ≠ 0
    · rw [if_pos hash] at base
      exact Or.inl (Or.inl (Or.inl (Or.inr base)))
    · rw [if_neg hash] at base
      cases base
  · rcases filled fill with zero | space
    · exact Or.inl (Or.inl (Or.inl (Or.inr zero)))
    · exact Or.inr space
  · obtain ⟨d, low, rfl⟩ := List.mem_map.mp digit
    exact Or.inl (Or.inl (Or.inl (Or.inl (mem_digitChars false
      (lt_of_mem_lowDigits (by decide : 0 < 16) low)))))
  · rcases filled fill with zero | space
    · exact Or.inl (Or.inl (Or.inl (Or.inr zero)))
    · exact Or.inr space

/-- A printed word has at most 19 characters beyond its width. -/
theorem length_printedInt_word (flags : Int32) (width : Int) (v : UInt64) :
    (printedInt 16 flags width false (signedValue v false)).length ≤ 19 + width.toNat := by
  have sign : (signChars (signedValue v false) flags).length ≤ 1 := by
    unfold signChars
    split_ifs <;> decide
  have base : (baseChars 16 flags false).length ≤ 2 := by
    unfold baseChars
    split_ifs <;> decide
  have digits : (digitsOf (wordOfInt 16).toNat (signedValue v false).natAbs).length ≤ 16 :=
    length_digitsOf_le (by decide) (by decide) v.toNat_lt
  have fill : (fillChars width flags
      (digitsOf (wordOfInt 16).toNat (signedValue v false).natAbs).length).length ≤ width.toNat := by
    rw [fillChars, List.length_replicate]
    omega
  unfold printedInt
  simp only [List.length_append, length_shownDigits]
  by_cases left : flags &&& leftAlign = 0
  · rw [if_pos left, if_neg (not_not_intro left), List.length_nil]
    omega
  · rw [if_neg left, if_pos left, List.length_nil]
    omega

/-- What a word is asked for with. -/
theorem width_asks (flags width : List UInt8) (c : UInt8) :
    (Segment.asks flags width .ll c).width ≤ decimal width ∧
      (Segment.asks flags width .ll c).width.toNat ≤ 256 := by
  dsimp only [Segment.asks, maxWidth]
  split_ifs <;> constructor <;> omega

/-- The text of a word. -/
def wordText (flags width : List UInt8) (v : UInt64) : List UInt8 :=
  printedInt 16 (flagsOf 0 flags) (Segment.asks flags width .ll (chr 'x')).width false v.toNat

/-- A character that no word is printed with is not in the text of a word. -/
theorem not_mem_wordText {flags width : List UInt8} {x : UInt8} (other : x ∉ wordChars flags width)
    (v : UInt64) : x ∉ wordText flags width v :=
  fun member => other (mem_wordChars (width_asks flags width (chr 'x')).1 v member)

/-- The text of a word is short. -/
theorem length_wordText_le (flags width : List UInt8) (v : UInt64) :
    (wordText flags width v).length ≤ 275 := by
  have length := length_printedInt_word (flagsOf 0 flags)
    (Segment.asks flags width .ll (chr 'x')).width v
  have capped := (width_asks flags width (chr 'x')).2
  unfold wordText
  change (printedInt 16 _ _ false (v.toNat : Int)).length ≤ _ at length
  omega

namespace Shows

variable {segments : List Segment} {args : List VaArg} {shown : List Shown} {text : List UInt8}

/-- Nothing shows nothing. -/
theorem nil : Shows [] [] [] [] := ⟨[], rfl, trivial, rfl, rfl⟩

/-- Characters of the format are not shown. -/
theorem plain (c : UInt8) (later : Shows segments args shown text) :
    Shows (.plain c :: segments) args shown (c :: text) := by
  obtain ⟨ps, asked, legible, values, same⟩ := later
  refine ⟨.literal c :: ps, ?_, ⟨trivial, trivial, trivial, legible⟩, values, ?_⟩
  · rw [Segment.pieces, Segment.piece, ok_bind]
    dsimp only
    rw [asked]
    rfl
  · rw [← same]
    rfl

/-- A text of the format is not shown. -/
theorem plains (chars : List UInt8) (later : Shows segments args shown text) :
    Shows (chars.map .plain ++ segments) args shown (chars ++ text) := by
  induction chars with
  | nil => exact later
  | cons c chars ih => exact ih.plain c

/-- The character behind a field is that of the next piece. -/
theorem endsBefore_of_stops {ps : List Piece} (asked : Segment.pieces segments args = .ok ps)
    {piece : Piece} (stops : Stops segments piece.text) : piece.EndsBefore ps := by
  cases piece with
  | literal c => exact trivial
  | conversion c how value =>
    cases segments with
    | nil =>
      cases asked
      exact trivial
    | cons segment segments =>
      obtain ⟨next, left, rest, first, -, rfl⟩ := Segment.pieces_cons_eq_ok asked
      rcases Segment.piece_eq_ok first with ⟨d, rfl, rfl, -⟩ | ⟨_, _, _, _, _, rfl, -⟩
      · exact stops
      · exact absurd stops id

/-- A conversion shows its value. -/
theorem conversion {flags width : List UInt8} {m : Modifier} {c : UInt8} {arg value : VaArg}
    (fetched : fetchValue c (Segment.asks flags width m c).length (arg :: args) = .ok (value, args))
    (defined : (Piece.conversion c (Segment.asks flags width m c) value).Defined)
    (readable : (Piece.conversion c (Segment.asks flags width m c) value).Readable)
    {field : List UInt8}
    (printed : (Piece.conversion c (Segment.asks flags width m c) value).text = field)
    (stops : Stops segments field) {found : Shown}
    (finds : (Piece.conversion c (Segment.asks flags width m c) value).shown = some found)
    (later : Shows segments args shown text) :
    Shows (.conversion flags width m c :: segments) (arg :: args) (found :: shown)
      (field ++ text) := by
  obtain ⟨ps, asked, legible, values, same⟩ := later
  rw [← printed] at stops ⊢
  refine ⟨.conversion c (Segment.asks flags width m c) value :: ps, ?_,
    ⟨defined, readable, endsBefore_of_stops asked stops, legible⟩, ?_, ?_⟩
  · rw [Segment.pieces, Segment.piece, fetched, ok_bind, ok_bind]
    dsimp only
    rw [asked]
    rfl
  · rw [List.filterMap_cons_some finds, values]
  · rw [← same]
    rfl

/-- A word is shown as its number. -/
theorem word (flags width : List UInt8) (v : UInt64)
    (order : ¬ (flagsOf 0 flags &&& leftAlign ≠ 0 ∧ flagsOf 0 flags &&& prependZeroes ≠ 0))
    (stops : Stops segments (wordChars flags width)) (later : Shows segments args shown text) :
    Shows (wordSegment flags width :: segments) (⟨v, none⟩ :: args) (.number v.toNat :: shown)
      (wordText flags width v ++ text) := by
  have fetched : fetchValue (chr 'x') (Segment.asks flags width .ll (chr 'x')).length
      (⟨v, none⟩ :: args) = .ok (⟨v, none⟩, args) := rfl
  refine conversion fetched ?_ ?_ rfl ?_ ?_ later
  · exact ⟨fun same => absurd same (by decide), fun same => absurd same (by decide)⟩
  · intro f number
    cases number
    exact ⟨order, reversal_hex_lt v.toNat_lt⟩
  · cases segments with
    | nil => exact trivial
    | cons segment segments =>
      cases segment with
      | plain d => exact not_mem_wordText stops v
      | conversion _ _ _ _ => exact stops
  · rfl

/-- A string is shown as its characters. -/
theorem string (str : CString) {place : UInt64} (notNull : place ≠ 0)
    (stops : Stops segments str.bytes) (later : Shows segments args shown text) :
    Shows (stringSegment :: segments) (⟨place, some str⟩ :: args) (.text str.bytes :: shown)
      (str.bytes ++ text) := by
  have printed : (Piece.conversion (chr 's') (Segment.asks [] [] .none (chr 's'))
      ⟨place, some str⟩).text = str.bytes := by
    change (if place = 0 then nullText.bytes else str.bytes) = _
    rw [if_neg notNull]
  have fetched : fetchValue (chr 's') (Segment.asks [] [] .none (chr 's')).length
      (⟨place, some str⟩ :: args) = .ok (⟨place, some str⟩, args) := rfl
  refine conversion fetched ?_ ?_ printed stops ?_ later
  · exact ⟨fun _ => Or.inr rfl, fun same => absurd same (by decide)⟩
  · intro f number
    cases number
  · exact congrArg (fun chars => some (Shown.text chars)) printed

/-- The values are found in the text. -/
theorem scan (shows : Shows segments args shown text) : Symphony.scan segments text = some shown := by
  obtain ⟨ps, asked, legible, values, same⟩ := shows
  rw [← values, ← same]
  exact scan_textOf asked legible

/-- `debug_vprintf` prints the text of its format. -/
theorem debugVprintf {t : Template} (shows : Shows t.segments args shown text)
    (short : text.length + 36 * t.segments.length < 2 ^ 31) :
    ∃ p, Symphony.debugVprintf t.format args = .ok p ∧ p.out = text := by
  obtain ⟨ps, asked, legible, -, rfl⟩ := shows
  have count := Segment.length_pieces asked
  refine ⟨_, (debugVprintf_template t asked ?_).mpr ⟨legible.defined, rfl⟩, rfl⟩
  rw [count]
  omega

end Shows

/-! ## Printed templates -/

/-- A reader that knows the template finds the values of a call in what `debug_vprintf` prints. -/
theorem debugVprintf_scan (t : Template) {args : List VaArg} {ps : List Piece}
    (asked : t.pieces args = .ok ps) (legible : Legible ps)
    (short : ((textOf ps).length : Int) + 36 * ps.length < 2 ^ 31) :
    ∃ p, debugVprintf t.format args = .ok p ∧
      scan t.segments p.out = some (ps.filterMap Piece.shown) := by
  refine ⟨_, (debugVprintf_template t asked short).mpr ⟨legible.defined, rfl⟩, ?_⟩
  exact scan_textOf asked legible

/-- A word and a string behind it. -/
def sampleTemplate : Template where
  segments := [wordSegment [chr '#', chr '0'] [chr '1', chr '6'], .plain (chr ' '), stringSegment]
  wellFormed := by decide +kernel
  fits := by decide

/-- A word and a string are found. -/
theorem debugVprintf_scan_sample :
    ∃ p, debugVprintf sampleTemplate.format [⟨0x1f, none⟩, ⟨0x5000, some nullText⟩] = .ok p ∧
      scan sampleTemplate.segments p.out = some [.number 0x1f, .text nullText.bytes] := by
  have notNull : (0x5000 : UInt64) ≠ 0 := by decide
  have behind : Stops [] nullText.bytes := trivial
  have string := Shows.nil.string nullText notNull behind
  have shows := (string.plain (chr ' ')).word [chr '#', chr '0'] [chr '1', chr '6'] 0x1f (by decide)
    (by decide +kernel)
  obtain ⟨ps, asked, legible, values, text⟩ := shows
  have word := length_wordText_le [chr '#', chr '0'] [chr '1', chr '6'] 0x1f
  have pieces := Segment.length_pieces asked
  have found := debugVprintf_scan sampleTemplate asked legible (by
    rw [text, pieces]
    simp only [List.length_append, List.length_cons, List.length_nil, nullText, List.length_map]
    omega)
  rwa [values] at found

end Symphony
