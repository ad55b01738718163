import Symphony.Verif.Flags

/-!
# Formats written as segments

A template is a format that is put together from characters and conversion specifications.
`debug_vprintf` finds exactly these segments in the rendered format, and prints for each of them
what it stands for.
-/

namespace Symphony

variable {fmt : CString} {i : Nat} {args : List VaArg}

/-! ## Templates -/

/-- Part of a format: a character that is printed as it is, or a conversion specification. -/
inductive Segment where
  | plain (c : UInt8)
  | conversion (flags width : List UInt8) (m : Modifier) (c : UInt8)
deriving DecidableEq

namespace Segment

/-- Characters of a segment in the format. -/
def chars : Segment → List UInt8
  | plain c => [c]
  | conversion flags width m c => specification flags width m c []

/-- A segment that can be told apart from what follows it: a character that starts no
specification, or a specification with different flags and a width that is an `int`. -/
def WellFormed : Segment → Prop
  | plain c => c ≠ chr '%' ∧ c ≠ 0
  | conversion flags width _ c =>
    IsSpecification flags width c ∧ flags.Nodup ∧ decimal width < 2 ^ 31

/-- Specifications are made of characters that can be tested one by one. -/
theorem isSpecification_iff {flags width : List UInt8} {c : UInt8} :
    (flags.all (· ∈ flagChars) && width.all isDigit && decide (width.head? ≠ some (chr '0')) &&
      decide (c ∈ conversionChars)) = true ↔ IsSpecification flags width c := by
  simp only [Bool.and_eq_true, List.all_eq_true, decide_eq_true_eq]
  constructor
  · intro parts
    exact ⟨parts.1.1.1, parts.1.1.2, parts.1.2, parts.2⟩
  · intro parts
    exact ⟨⟨⟨parts.flags, parts.digits⟩, parts.noZero⟩, parts.conversion⟩

instance (flags width : List UInt8) (c : UInt8) : Decidable (IsSpecification flags width c) :=
  decidable_of_iff _ isSpecification_iff

instance : DecidablePred WellFormed
  | .plain c => inferInstanceAs (Decidable (c ≠ chr '%' ∧ c ≠ 0))
  | .conversion flags width _ c =>
    inferInstanceAs (Decidable (IsSpecification flags width c ∧ flags.Nodup ∧ decimal width < 2 ^ 31))

/-- What a specification asks for, without its place. -/
def asks (flags width : List UInt8) (m : Modifier) (c : UInt8) : Conversion where
  flags := flagsOf 0 flags
  width := if (decimal width : Int) > maxWidth then maxWidth else decimal width
  length := if m = .none ∧ (c = chr 'p' ∨ c = chr 's') then .ptr else m.length
  index := 0

/-- What a segment prints, with the arguments that it leaves. -/
def piece : Segment → List VaArg → Except Fault (Piece × List VaArg)
  | plain c, args => .ok (.literal c, args)
  | conversion flags width m c, args => do
    let (value, args) ← fetchValue c (asks flags width m c).length args
    .ok (.conversion c (asks flags width m c) value, args)

/-- What some segments print. -/
def pieces : List Segment → List VaArg → Except Fault (List Piece)
  | [], _ => .ok []
  | segment :: segments, args => do
    let (piece, args) ← segment.piece args
    let rest ← pieces segments args
    .ok (piece :: rest)

/-- A segment has at least one character. -/
theorem chars_ne_nil (segment : Segment) : segment.chars ≠ [] := by
  cases segment with
  | plain c => exact List.cons_ne_nil c []
  | conversion flags width m c => exact List.cons_ne_nil _ _

/-- A specification is followed by the rest of the format. -/
theorem specification_append (flags width : List UInt8) (m : Modifier) (c : UInt8)
    (tail : List UInt8) :
    specification flags width m c [] ++ tail = specification flags width m c tail := by
  simp [specification]

/-- Segments do not contain the NUL. -/
theorem WellFormed.noNul {segment : Segment} (wellFormed : segment.WellFormed) :
    0 ∉ segment.chars := by
  cases segment with
  | plain c =>
    rw [chars, List.mem_singleton]
    exact fun same => wellFormed.2 same.symm
  | conversion flags width m c =>
    obtain ⟨parts, -, -⟩ := wellFormed
    have noFlag : (0 : UInt8) ∉ flagChars := by decide +kernel
    have noConversion : (0 : UInt8) ∉ conversionChars := by decide +kernel
    have noModifier : 0 ∉ m.text := by cases m <;> decide +kernel
    have noPercent : (0 : UInt8) ≠ chr '%' := by decide
    have noDigit : isDigit 0 = false := by decide
    simp only [chars, specification, List.mem_cons, List.mem_append, List.not_mem_nil, or_false, not_or]
    refine ⟨noPercent, fun inFlags => noFlag (parts.flags 0 inFlags), fun inWidth => ?_, noModifier,
      fun same => noConversion (same ▸ parts.conversion)⟩
    have digit := parts.digits 0 inWidth
    rw [noDigit] at digit
    cases digit

end Segment

/-- A format that is given by its segments. -/
structure Template where
  /-- Segments in their order. -/
  segments : List Segment
  /-- They can be told apart. -/
  wellFormed : ∀ segment ∈ segments, segment.WellFormed
  /-- The format lies in memory. -/
  fits : (segments.flatMap Segment.chars).length < 2 ^ 64

namespace Template

/-- The format string of a template. -/
def format (t : Template) : CString where
  bytes := t.segments.flatMap Segment.chars
  noNul := by
    rw [List.mem_flatMap]
    rintro ⟨segment, member, nul⟩
    exact (t.wellFormed segment member).noNul nul
  fits := t.fits

/-- What a template prints. -/
def pieces (t : Template) (args : List VaArg) : Except Fault (List Piece) :=
  Segment.pieces t.segments args

end Template

/-! ## Parsed templates -/

/-- A piece without the place of its conversion. -/
def Piece.placeless : Piece → Piece
  | .literal c => .literal c
  | .conversion c how value => .conversion c { how with index := 0 } value

/-- The place of a conversion does not matter for its text. -/
theorem Piece.text_placeless (piece : Piece) : piece.placeless.text = piece.text := by
  cases piece <;> rfl

/-- The place of a conversion does not matter for the counter. -/
theorem Piece.excess_placeless (piece : Piece) : piece.placeless.excess = piece.excess := by
  cases piece <;> rfl

/-- The place of a conversion does not matter for its being defined. -/
theorem Piece.defined_placeless (piece : Piece) : piece.placeless.Defined ↔ piece.Defined := by
  cases piece <;> rfl

/-- A specification is parsed as what it asks for. -/
theorem parseConversion_segment {flags width : List UInt8} {m : Modifier} {c : UInt8}
    (wellFormed : (Segment.conversion flags width m c).WellFormed) {tail : List UInt8}
    (rest : fmt.rest i = specification flags width m c tail) :
    ∃ l, parseConversion fmt i = .ok { Segment.asks flags width m c with index := l } ∧
      fmt.rest l = c :: tail := by
  obtain ⟨parts, once, small⟩ := wellFormed
  obtain ⟨j, foundFlags, inside, behindFlags⟩ := parts.parseFlags_once once rest
  have foundWidth := parseWidth_value inside
  rw [behindFlags, parts.takeWhile_width, if_pos small] at foundWidth
  have behindWidth := fmt.rest_append behindFlags
  have foundLength := parseLength_text (noModifier (Or.inl parts.conversion)) behindWidth
  exact ⟨_, parseConversion_parts foundFlags foundWidth foundLength, fmt.rest_append behindWidth⟩

/-- The piece at a segment is what the segment prints, and the format goes on behind it. -/
theorem pieceAt_segment {segment : Segment} (wellFormed : segment.WellFormed) {tail : List UInt8}
    (rest : fmt.rest i = segment.chars ++ tail) (args : List VaArg) :
    (pieceAt fmt i args).map (fun found => (found.1.placeless, fmt.rest found.2.1, found.2.2)) =
      (segment.piece args).map fun found => (found.1, tail, found.2) := by
  cases segment with
  | plain c =>
    obtain ⟨read, next, -⟩ := CString.get_of_rest (c := c) rest
    rw [pieceAt, read, ok_bind, if_pos wellFormed.1]
    exact congrArg (fun rest => Except.ok (Piece.literal c, rest, args)) next
  | conversion flags width m c =>
    rw [Segment.chars, Segment.specification_append] at rest
    obtain ⟨read, -, -⟩ := CString.get_of_rest (c := chr '%') rest
    obtain ⟨l, parsed, behind⟩ := parseConversion_segment wellFormed rest
    obtain ⟨readC, next, -⟩ := CString.get_of_rest behind
    rw [pieceAt, read, ok_bind, if_neg (not_not_intro rfl), parsed, ok_bind, readC, ok_bind,
      Segment.piece]
    dsimp only
    cases fetchValue c (Segment.asks flags width m c).length args with
    | error e => rfl
    | ok found =>
      have pieces : (Piece.conversion c { Segment.asks flags width m c with index := l }
          found.1).placeless = .conversion c (Segment.asks flags width m c) found.1 := rfl
      exact congrArg (fun rest => Except.ok (Piece.conversion c (Segment.asks flags width m c) found.1,
        rest, found.2)) next

/-- The pieces behind an index are what the segments there print. -/
theorem piecesFrom_segments {segments : List Segment}
    (wellFormed : ∀ segment ∈ segments, segment.WellFormed) {fuel : Nat}
    (rest : fmt.rest i = segments.flatMap Segment.chars) (enough : (fmt.rest i).length ≤ fuel)
    (args : List VaArg) :
    (piecesFrom fmt fuel i args).map (List.map Piece.placeless) = Segment.pieces segments args := by
  induction segments generalizing i fuel args with
  | nil =>
    have done : ¬ i < fmt.bytes.length := by
      rw [fmt.lt_length_iff, rest]
      exact not_not_intro rfl
    cases fuel with
    | zero =>
      rw [piecesFrom, if_neg done]
      rfl
    | succ fuel =>
      rw [piecesFrom, if_neg done]
      rfl
  | cons segment segments ih =>
    rw [List.flatMap_cons] at rest
    have some := List.length_pos_of_ne_nil segment.chars_ne_nil
    have more : i < fmt.bytes.length := by
      rw [fmt.lt_length_iff, rest]
      exact fun none => segment.chars_ne_nil (List.append_eq_nil_iff.mp none).1
    rw [rest, List.length_append] at enough
    cases fuel with
    | zero => omega
    | succ fuel =>
      have found := pieceAt_segment (wellFormed segment List.mem_cons_self) rest args
      rw [piecesFrom, if_pos more, Segment.pieces]
      cases read : pieceAt fmt i args with
      | error e =>
        cases asked : segment.piece args with
        | error e' =>
          rw [read, asked] at found
          cases found
          rfl
        | ok out =>
          rw [read, asked] at found
          cases found
      | ok out =>
        cases asked : segment.piece args with
        | error e =>
          rw [read, asked] at found
          cases found
        | ok out' =>
          obtain ⟨piece, next, left⟩ := out
          obtain ⟨piece', left'⟩ := out'
          rw [read, asked] at found
          obtain ⟨same, found⟩ := Prod.mk.inj (Except.ok.inj found)
          obtain ⟨behind, same'⟩ := Prod.mk.inj found
          dsimp only at same behind same'
          subst same same'
          have fits : (fmt.rest next).length ≤ fuel := by
            rw [behind]
            omega
          have later := ih (fun s member => wellFormed s (List.mem_cons_of_mem segment member)) behind
            fits left
          rw [ok_bind, ok_bind]
          dsimp only
          rw [← later]
          cases piecesFrom fmt fuel next left with
          | error e => rfl
          | ok ps => rfl

/-- Parsing undoes rendering: for all templates and arguments, the pieces that `debug_vprintf`
finds in the format of the template are, up to the places of the conversions, those of its
segments; and it fails where an argument is missing for one of these. -/
theorem pieces_format (t : Template) (args : List VaArg) :
    (pieces t.format args).map (List.map Piece.placeless) = t.pieces args := by
  apply piecesFrom_segments t.wellFormed
  · exact List.drop_zero
  · exact Nat.le_of_eq (congrArg List.length List.drop_zero)

/-! ## Printed templates -/

/-- A piece counts at most 36 characters too many. -/
theorem Piece.excess_le (piece : Piece) : piece.excess ≤ 36 := by
  cases piece with
  | literal c => exact (by decide : (0 : Int) ≤ 36)
  | conversion c how value =>
    have percent : (36 : Int) ≤ 36 := by decide
    have none : (0 : Int) ≤ 36 := by decide
    have octal : (-1 : Int) ≤ 36 := by decide
    have hex : (-2 : Int) ≤ 36 := by decide
    dsimp only [excess]
    split_ifs
    all_goals assumption

/-- Pieces count at most 36 characters each too many. -/
theorem excessOf_le (ps : List Piece) : excessOf ps ≤ 36 * ps.length := by
  induction ps with
  | nil => exact Int.le_refl 0
  | cons piece ps ih =>
    have head := piece.excess_le
    have sum : excessOf (piece :: ps) = piece.excess + excessOf ps := List.sum_cons
    rw [sum, List.length_cons]
    push_cast
    omega

/-- The places of conversions change neither the text nor the counter. -/
theorem textOf_placeless (ps : List Piece) :
    textOf (ps.map Piece.placeless) = textOf ps ∧ excessOf (ps.map Piece.placeless) = excessOf ps := by
  constructor
  · rw [textOf, textOf, List.flatMap_map]
    exact List.flatMap_congr fun piece _ => piece.text_placeless
  · rw [excessOf, excessOf, List.map_map]
    congr 1
    exact List.map_congr_left fun piece _ => piece.excess_placeless

/-- Where the text and its counter stay far below 2^31, pieces are printed one after another
exactly if all of them are defined. -/
theorem printPieces_short {ps : List Piece} {p : Printer}
    (short : ((textOf ps).length : Int) + 36 * ps.length < 2 ^ 31) :
    printPieces ps ⟨[], 0⟩ = .ok p ↔ (∀ piece ∈ ps, piece.Defined) ∧
      p = ⟨textOf ps, (textOf ps).length + excessOf ps⟩ := by
  rw [printPieces_eq_ok (by omega) (Int.le_refl 0) (by decide)]
  have inRange (before : List Piece) (isPrefix : before <+: ps) :
      (0 : Int) + ((textOf before).length + excessOf before) < 2 ^ 31 := by
    have excess := excessOf_le before
    have pieces := isPrefix.length_le
    obtain ⟨behind, rfl⟩ := isPrefix
    have text : textOf (before ++ behind) = textOf before ++ textOf behind := List.flatMap_append
    rw [text, List.length_append] at short
    push_cast at short
    omega
  rw [List.nil_append, Int.zero_add, eq_comm]
  exact ⟨fun all => ⟨all.1, all.2.2⟩, fun both => ⟨both.1, inRange, both.2⟩⟩

/-- What a call of `debug_vprintf` with a template prints: the texts of its segments one after
another, unless one of them is undefined. -/
theorem debugVprintf_template (t : Template) {args : List VaArg} {ps : List Piece}
    (asked : t.pieces args = .ok ps)
    (short : ((textOf ps).length : Int) + 36 * ps.length < 2 ^ 31) {p : Printer} :
    debugVprintf t.format args = .ok p ↔ (∀ piece ∈ ps, piece.Defined) ∧
      p = ⟨textOf ps, (textOf ps).length + excessOf ps⟩ := by
  have start := List.drop_zero (l := t.format.bytes)
  have parsing := piecesFrom_segments t.wellFormed start
    (Nat.le_of_eq (congrArg List.length start)) args
  change (pieces t.format args).map _ = t.pieces args at parsing
  rw [← parsing] at asked
  rw [debugVprintf_eq_ok]
  cases parsed : pieces t.format args with
  | error e =>
    rw [parsed] at asked
    cases asked
  | ok qs =>
    rw [parsed] at asked
    cases asked
    obtain ⟨text, excess⟩ := textOf_placeless qs
    rw [text, List.length_map] at short
    rw [text, excess]
    simp only [Except.ok.injEq, exists_eq_left', printPieces_short short, List.forall_mem_map,
      Piece.defined_placeless]

end Symphony
