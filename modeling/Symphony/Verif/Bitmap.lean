import Symphony.Spec.Frames
import Mathlib.Tactic.IntervalCases

/-!
# Bits of the frame bitmap

`pmm_bitmap_set` and `pmm_bitmap_clear` change the bit of their page and no other
tracked bit, and write to the bitmap only. `Marks` is the effect of any sequence of
such steps; the loops of `pmm_alloc` and `pmm_free` are sequences over a range.
-/

namespace Symphony

/-- A page mask selects one bit of a byte, counted from the most significant one. -/
theorem pageMask_twoPow {j : Nat} (small : j < 8) :
    (pageMask (UInt8.ofNat j)).toBitVec = BitVec.twoPow 8 (7 - j) := by
  interval_cases j <;> rfl

/-- Masking a byte tests one bit. -/
theorem and_pageMask_ne_zero {b : UInt8} {j : Nat} (small : j < 8) :
    b &&& pageMask (UInt8.ofNat j) ≠ 0 ↔ b.toBitVec.getLsbD (7 - j) = true := by
  rw [ne_eq, ← UInt8.toBitVec_inj, UInt8.toBitVec_and, pageMask_twoPow small, BitVec.and_twoPow]
  cases bit : b.toBitVec.getLsbD (7 - j) with
  | false => simp
  | true =>
    have place : 7 - j < 8 := by omega
    simp only [↓reduceIte, iff_true]
    intro zero
    have value := congrArg BitVec.toNat zero
    rw [BitVec.toNat_twoPow, Nat.mod_eq_of_lt (Nat.pow_lt_pow_right (by decide) place)] at value
    exact absurd value (Nat.two_pow_pos _).ne'

/-- Setting one bit sets that bit only. -/
theorem or_pageMask_ne_zero {b : UInt8} {i j : Nat} (hi : i < 8) (hj : j < 8) :
    (b ||| pageMask (UInt8.ofNat i)) &&& pageMask (UInt8.ofNat j) ≠ 0 ↔
      j = i ∨ b &&& pageMask (UInt8.ofNat j) ≠ 0 := by
  rw [and_pageMask_ne_zero hj, and_pageMask_ne_zero hj, UInt8.toBitVec_or, BitVec.getLsbD_or,
    pageMask_twoPow hi, BitVec.getLsbD_twoPow, Bool.or_eq_true, Bool.and_eq_true,
    decide_eq_true_eq, decide_eq_true_eq, or_comm]
  refine or_congr_left ?_
  omega

/-- Clearing one bit clears that bit only. -/
theorem and_not_pageMask_ne_zero {b : UInt8} {i j : Nat} (hi : i < 8) (hj : j < 8) :
    (b &&& ~~~ pageMask (UInt8.ofNat i)) &&& pageMask (UInt8.ofNat j) ≠ 0 ↔
      j ≠ i ∧ b &&& pageMask (UInt8.ofNat j) ≠ 0 := by
  rw [and_pageMask_ne_zero hj, and_pageMask_ne_zero hj, UInt8.toBitVec_and, BitVec.getLsbD_and,
    UInt8.toBitVec_not, BitVec.getLsbD_not, pageMask_twoPow hi, BitVec.getLsbD_twoPow,
    Bool.and_eq_true, Bool.and_eq_true, Bool.not_eq_true', Bool.and_eq_false_iff,
    decide_eq_true_eq, decide_eq_false_iff_not, decide_eq_false_iff_not, and_comm]
  refine and_congr_left fun _ => ?_
  omega

/-- Steps on the bitmap lead from one machine to the other: the static variables stay,
only the bitmap is written, and the tracked frames in `now` are the allocated ones. -/
structure Machine.Marks (s s' : Machine) (now : Nat → Prop) : Prop where
  /-- The bitmap stays in its place. -/
  bitmap : s'.bitmap = s.bitmap
  /-- The bitmap keeps its size. -/
  size : s'.bitmapSize = s.bitmapSize
  /-- Only the bitmap is written. -/
  writes : s.mem.Writes s.InBitmap s'.mem
  /-- The bits after the steps. -/
  bits : ∀ p, s.Tracked p → (s'.Allocated p ↔ now p)

namespace Machine.Marks

variable {s s' s'' : Machine} {now later : Nat → Prop}

/-- No step. -/
theorem refl (s : Machine) : s.Marks s s.Allocated := ⟨rfl, rfl, Memory.Writes.refl, fun _ _ => Iff.rfl⟩

/-- Steps compose. -/
theorem trans (first : s.Marks s' now) (second : s'.Marks s'' later) : s.Marks s'' later where
  bitmap := second.bitmap.trans first.bitmap
  size := second.size.trans first.size
  writes := first.writes.trans (second.writes.mono fun a inside => by
    rwa [InBitmap, first.bitmap, first.size] at inside)
  bits p tracked := second.bits p (by rwa [Tracked, first.size])

/-- The frames may be described in another way. -/
theorem congr (marks : s.Marks s' now) (same : ∀ p, s.Tracked p → (now p ↔ later p)) :
    s.Marks s' later :=
  { marks with bits := fun p tracked => (marks.bits p tracked).trans (same p tracked) }

/-- The same frames are tracked. -/
theorem tracked (marks : s.Marks s' now) (p : Nat) : s'.Tracked p ↔ s.Tracked p := by
  rw [Tracked, Tracked, marks.size]

/-- The bitmap lies in the same frames. -/
theorem bitmapFrame (marks : s.Marks s' now) (boot : Boot) (p : Nat) :
    s'.BitmapFrame boot p ↔ s.BitmapFrame boot p := by
  simp only [BitmapFrame, InBitmap, marks.bitmap, marks.size]

end Machine.Marks

/-- The cell of a page as an offset. -/
theorem cell_eq (page : UInt64) : page / 8 = UInt64.ofNat (page.toNat / 8) := by
  have small := page.toNat_lt
  rw [← UInt64.toNat_inj, UInt64.toNat_div, toNat_ofNat_of_fits (by omega)]
  rfl

/-- The machine after the cell of a page was changed. -/
def Machine.changeCell (s : Machine) (page : UInt64) (change : UInt8 → UInt8) : Machine :=
  let cell := s.bitmap + page / 8
  { s with mem := s.mem.store8 cell (change (s.mem.byte cell)) }

/-- Changing the cell of a page decides the bits of that cell only. -/
theorem allocated_changeCell (s : Machine) (page : UInt64) (change : UInt8 → UInt8) {p : Nat}
    (fits : p < 2 ^ 64) :
    (s.changeCell page change).Allocated p ↔
      if p / 8 = page.toNat / 8 then
        change (s.mem.byte (s.bitmap + UInt64.ofNat (p / 8))) &&& pageMask (UInt8.ofNat (p % 8)) ≠ 0
      else s.Allocated p := by
  have small := page.toNat_lt
  have same : s.bitmap + UInt64.ofNat (p / 8) = s.bitmap + page / 8 ↔ p / 8 = page.toNat / 8 := by
    rw [cell_eq, eq_add_ofNat_iff (by omega), (eq_add_ofNat_iff (by omega)).mp rfl]
  unfold Machine.changeCell Machine.Allocated Memory.store8
  by_cases here : p / 8 = page.toNat / 8
  · simp only [if_pos here, same.mpr here, ↓reduceIte]
  · simp only [if_neg (mt same.mp here), if_neg here]

/-- The bit index of a page inside its cell. -/
theorem pageMask_of_page (page : UInt64) :
    pageMask (page % 8).toUInt8 = pageMask (UInt8.ofNat (page.toNat % 8)) := by
  congr 1

/-- The cell of a tracked page lies in the bitmap. -/
theorem inBitmap_cell {s : Machine} {page : UInt64} (tracked : s.Tracked page.toNat) :
    s.InBitmap (s.bitmap + page / 8) := by
  have distance : s.bitmap + page / 8 - s.bitmap = page / 8 := by grind
  rw [Machine.InBitmap, Span, distance, UInt64.toNat_div]
  change page.toNat / 8 < _
  unfold Machine.Tracked at tracked
  omega

/-- The bound that both bit operations assert. -/
theorem page_in_bounds {s : Machine} {page : UInt64} :
    page / 8 < s.bitmapSize ↔ s.Tracked page.toNat := by
  rw [UInt64.lt_iff_toNat_lt, UInt64.toNat_div, Machine.Tracked]
  change page.toNat / 8 < _ ↔ _
  omega

/-- `pmm_bitmap_set` stores where its assertion passes. -/
theorem pmmBitmapSet_eq (page : UInt64) (s : Machine) : pmmBitmapSet page s =
    if s.Tracked page.toNat then
      .ok (s.changeCell page (· ||| pageMask (UInt8.ofNat (page.toNat % 8))))
    else .error (.assertion "pmm_bitmap_set" "PMM bitmap set operation out of bounds!\n") := by
  rw [pmmBitmapSet, debugAssert_intOfBool, pageMask_of_page]
  simp only [page_in_bounds]
  split <;> rfl

/-- `pmm_bitmap_clear` stores where its assertion passes. -/
theorem pmmBitmapClear_eq (page : UInt64) (s : Machine) : pmmBitmapClear page s =
    if s.Tracked page.toNat then
      .ok (s.changeCell page (· &&& ~~~ pageMask (UInt8.ofNat (page.toNat % 8))))
    else .error (.assertion "pmm_bitmap_clear" "PMM bitmap clear operation out of bounds!\n") := by
  rw [pmmBitmapClear, debugAssert_intOfBool, pageMask_of_page]
  simp only [page_in_bounds]
  split <;> rfl

/-- Frame numbers below the bitmap's last bit are 64-bit numbers. -/
def Machine.Sized (s : Machine) : Prop := 8 * s.bitmapSize.toNat < 2 ^ 64

/-- Changing the cell of a tracked page is a step on the bitmap, described for the pages of this
cell and for the others. -/
theorem changeCell_marks {s : Machine} {page : UInt64} {change : UInt8 → UInt8} {now : Nat → Prop}
    (sized : s.Sized) (tracked : s.Tracked page.toNat)
    (here : ∀ p, p / 8 = page.toNat / 8 →
      (change (s.mem.byte (s.bitmap + UInt64.ofNat (p / 8))) &&& pageMask (UInt8.ofNat (p % 8)) ≠ 0 ↔
        now p))
    (elsewhere : ∀ p, p / 8 ≠ page.toNat / 8 → (s.Allocated p ↔ now p)) :
    s.Marks (s.changeCell page change) now := by
  refine ⟨rfl, rfl, (s.mem.store8_writes _ _).mono ?_, fun p trackedP => ?_⟩
  · rintro a rfl
    exact inBitmap_cell tracked
  · rw [allocated_changeCell s page change (Nat.lt_trans trackedP sized)]
    by_cases cell : p / 8 = page.toNat / 8
    · rw [if_pos cell]
      exact here p cell
    · rw [if_neg cell]
      exact elsewhere p cell

/-- `pmm_bitmap_set` sets the bit of its page, or stops. -/
theorem pmmBitmapSet_meets {s : Machine} (page : UInt64) (sized : s.Sized) :
    Meets (pmmBitmapSet page s) (fun s' => s.Marks s' fun p => p = page.toNat ∨ s.Allocated p)
      (fun _ => ¬ s.Tracked page.toNat) := by
  rw [pmmBitmapSet_eq]
  by_cases tracked : s.Tracked page.toNat
  · rw [if_pos tracked]
    apply changeCell_marks sized tracked
    · intro p cell
      rw [or_pageMask_ne_zero (Nat.mod_lt _ (by decide)) (Nat.mod_lt p (by decide))]
      exact or_congr_left (by omega)
    · intro p cell
      exact (or_iff_right fun eq => cell (by rw [eq])).symm
  · rw [if_neg tracked]
    exact tracked

/-- `pmm_bitmap_clear` clears the bit of its page, or stops. -/
theorem pmmBitmapClear_meets {s : Machine} (page : UInt64) (sized : s.Sized) :
    Meets (pmmBitmapClear page s) (fun s' => s.Marks s' fun p => p ≠ page.toNat ∧ s.Allocated p)
      (fun _ => ¬ s.Tracked page.toNat) := by
  rw [pmmBitmapClear_eq]
  by_cases tracked : s.Tracked page.toNat
  · rw [if_pos tracked]
    apply changeCell_marks sized tracked
    · intro p cell
      rw [and_not_pageMask_ne_zero (Nat.mod_lt _ (by decide)) (Nat.mod_lt p (by decide))]
      exact and_congr_left fun _ => by omega
    · intro p cell
      exact (and_iff_right fun eq => cell (by rw [eq])).symm
  · rw [if_neg tracked]
    exact tracked

/-! ## Ranges of pages -/

/-- The loop of `pmm_alloc` sets the bits of its range, or stops at a page outside. -/
theorem setRange_meets {s : Machine} (first stop : UInt64) (sized : s.Sized) :
    Meets (forRange pmmBitmapSet first stop s)
      (fun s' => s.Marks s' fun p => first.toNat ≤ p ∧ p < stop.toNat ∨ s.Allocated p)
      (fun _ => ∃ p, first.toNat ≤ p ∧ p < stop.toNat ∧ ¬ s.Tracked p) := by
  have bound := stop.toNat_lt
  refine (forLoop_meets (fun i t => s.Marks t fun p => first.toNat ≤ p ∧ p < i ∨ s.Allocated p)
    ?_ ?_).mono (fun t marks => marks.congr fun p _ => or_congr_left (by omega)) fun _ => id
  · intro i t lower upper marks
    have index : (UInt64.ofNat i).toNat = i := toNat_ofNat_of_fits (by omega)
    have step := pmmBitmapSet_meets (s := t) (UInt64.ofNat i) (by rwa [Machine.Sized, marks.size])
    rw [index] at step
    refine step.mono (fun u one => (marks.trans one).congr fun p tracked => ?_) fun _ outside =>
      ⟨i, lower, by omega, mt (marks.tracked i).mpr outside⟩
    rw [marks.bits p tracked, ← or_assoc]
    exact or_congr_left (by omega)
  · exact (Machine.Marks.refl s).congr fun p _ => (or_iff_right (by omega)).symm

/-- The loop of `pmm_free` clears the bits of its range, or stops at a page outside. -/
theorem clearRange_meets {s : Machine} (first stop : UInt64) (sized : s.Sized) :
    Meets (forRange pmmBitmapClear first stop s)
      (fun s' => s.Marks s' fun p => ¬ (first.toNat ≤ p ∧ p < stop.toNat) ∧ s.Allocated p)
      (fun _ => ∃ p, first.toNat ≤ p ∧ p < stop.toNat ∧ ¬ s.Tracked p) := by
  have bound := stop.toNat_lt
  refine (forLoop_meets
    (fun i t => s.Marks t fun p => ¬ (first.toNat ≤ p ∧ p < i) ∧ s.Allocated p) ?_ ?_).mono
    (fun t marks => marks.congr fun p _ => and_congr_left fun _ => by omega) fun _ => id
  · intro i t lower upper marks
    have index : (UInt64.ofNat i).toNat = i := toNat_ofNat_of_fits (by omega)
    have step := pmmBitmapClear_meets (s := t) (UInt64.ofNat i) (by rwa [Machine.Sized, marks.size])
    rw [index] at step
    refine step.mono (fun u one => (marks.trans one).congr fun p tracked => ?_) fun _ outside =>
      ⟨i, lower, by omega, mt (marks.tracked i).mpr outside⟩
    rw [marks.bits p tracked, ← and_assoc]
    exact and_congr_left fun _ => by omega
  · exact (Machine.Marks.refl s).congr fun p _ => (and_iff_right (by omega)).symm

end Symphony
