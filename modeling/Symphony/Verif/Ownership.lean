import Symphony.Verif.PmmInit

/-!
# Ownership of page frames

The owners of page frames hold what `pmm_alloc` returned to them and `pmm_free` has not
taken back. `Machine.Owns` relates a machine to the set of held frames: the set bits are
the reserved frames and the held ones. `pmm_init` establishes it for the empty set, and
every allocation, every release of held frames and every write outside the bitmap keeps
it, so no frame is ever handed out to two owners.
-/

namespace Symphony

variable {boot : Boot} {s s' : Machine} {held : Nat → Prop}

/-- The pages of a request of `pages` pages at a physical address. -/
def PageRange (base : UInt64) (pages : Int32) (p : Nat) : Prop :=
  base.toNat / 4096 ≤ p ∧ p < base.toNat / 4096 + pages.toInt.toNat

/-- A frame that may be handed out: usable, not page zero and no frame of the bitmap. -/
def Machine.Allocatable (boot : Boot) (s : Machine) (p : Nat) : Prop :=
  boot.UsablePage p ∧ p ≠ 0 ∧ ¬ s.BitmapFrame boot p

/-- The owners hold exactly the frames that are allocated without being reserved. -/
structure Machine.Owns (boot : Boot) (s : Machine) (held : Nat → Prop) : Prop where
  /-- The bitmap covers no more than the address space. -/
  size : 8 * s.bitmapSize.toNat ≤ 2 ^ 52 + 7
  /-- Every usable page has a bit. -/
  tracked : ∀ p, boot.UsablePage p → s.Tracked p
  /-- No reserved frame is held. -/
  allocatable : ∀ p, held p → s.Allocatable boot p
  /-- The set bits. -/
  bits : ∀ p, s.Tracked p → (s.Allocated p ↔ ¬ s.Allocatable boot p ∨ held p)

/-- Frame numbers of usable pages have at most 52 bits. -/
theorem Boot.Limine.usable_lt (limine : boot.Limine) {p : Nat} (usable : boot.UsablePage p) :
    p < 2 ^ 52 := by
  obtain ⟨entry, inMap, -, -, upper⟩ := usable
  have := limine.range entry inMap
  omega

/-- Page numbers fit a word. -/
theorem Machine.Owns.sized (owns : s.Owns boot held) : s.Sized := by
  have := owns.size
  unfold Machine.Sized
  omega

/-- The cell of a tracked frame lies in the bitmap. -/
theorem inBitmap_of_tracked (sized : s.Sized) {p : Nat} (tracked : s.Tracked p) :
    s.InBitmap (s.bitmap + UInt64.ofNat (p / 8)) := by
  unfold Machine.Sized at sized
  unfold Machine.Tracked at tracked
  rw [Machine.InBitmap, Span, (eq_add_ofNat_iff (by omega)).mp rfl]
  omega

/-- The bitmap that `pmm_init` leaves is owned by nobody. -/
theorem Boot.Initialised.owns (limine : boot.Limine) (initialised : boot.Initialised s) :
    s.Owns boot fun _ => False where
  size := by
    obtain ⟨entry, inMap, -, size⟩ := initialised.size
    have := limine.range entry inMap
    omega
  tracked := initialised.tracked
  allocatable _ := False.elim
  bits p tracked := by
    rw [initialised.bits p tracked, Machine.Allocatable, or_false, not_and_or, not_and_or, not_not,
      not_not]

/-- Steps on the bitmap that set exactly the bits of the new owners. -/
theorem Machine.Owns.marks {later : Nat → Prop} (owns : s.Owns boot held)
    (marks : s.Marks s' fun p => ¬ s.Allocatable boot p ∨ later p)
    (allocatable : ∀ p, later p → s.Allocatable boot p) : s'.Owns boot later := by
  have same (p : Nat) : s'.Allocatable boot p ↔ s.Allocatable boot p := by
    rw [Machine.Allocatable, Machine.Allocatable, marks.bitmapFrame]
  refine ⟨by rw [marks.size]; exact owns.size, fun p usable => ?_, fun p has => ?_, fun p inside => ?_⟩
  · exact (marks.tracked p).mpr (owns.tracked p usable)
  · exact (same p).mpr (allocatable p has)
  · rw [same]
    exact marks.bits p ((marks.tracked p).mp inside)

/-- The held frames may be described in another way. -/
theorem Machine.Owns.congr {later : Nat → Prop} (owns : s.Owns boot held)
    (same : ∀ p, held p ↔ later p) : s.Owns boot later := by
  rwa [show later = held from funext fun p => propext (same p).symm]

/-- A change of the memory outside the bitmap. -/
theorem Machine.Owns.write (owns : s.Owns boot held) {m : Memory}
    (same : ∀ a, s.InBitmap a → m.byte a = s.mem.byte a) :
    Machine.Owns boot { s with mem := m } held where
  size := owns.size
  tracked := owns.tracked
  allocatable := owns.allocatable
  bits p tracked := by
    rw [Machine.Allocated, same _ (inBitmap_of_tracked owns.sized tracked)]
    exact owns.bits p tracked

/-- `pmm_alloc` hands out frames that are allocatable and held by nobody, or fails. -/
theorem Machine.Owns.alloc (limine : boot.Limine) (owns : s.Owns boot held) {pages : Int32} :
    Meets (pmmAlloc pages s)
      (fun r => 4096 ∣ r.1.toNat ∧
        (∀ p, PageRange r.1 pages p → s.Allocatable boot p ∧ ¬ held p) ∧
        s.Marks r.2 (fun p => PageRange r.1 pages p ∨ s.Allocated p) ∧
        r.2.Owns boot fun p => held p ∨ PageRange r.1 pages p)
      (s.Fails pages) := by
  refine (pmmAlloc_meets pages owns.sized).mono ?_ fun _ => id
  rintro ⟨address, s'⟩ ⟨base, ⟨positive, free, -⟩, rfl, marks⟩
  have clear (p : Nat) (lower : base.toNat ≤ p) (upper : p < base.toNat + pages.toInt.toNat) :
      s.Allocatable boot p ∧ ¬ held p := by
    obtain ⟨inside, isFree⟩ := free p lower upper
    rw [owns.bits p inside, not_or, not_not] at isFree
    exact isFree
  have small := limine.usable_lt (clear base.toNat le_rfl (by omega)).1.1
  have address : (base <<< 12).toNat = 4096 * base.toNat := by
    rw [UInt64.toNat_shiftLeft, Nat.shiftLeft_eq]
    change base.toNat * 4096 % 2 ^ 64 = _
    omega
  have range (p : Nat) : PageRange (base <<< 12) pages p ↔
      base.toNat ≤ p ∧ p < base.toNat + pages.toInt.toNat := by
    rw [PageRange, address, Nat.mul_div_cancel_left _ (by decide)]
  refine ⟨by rw [address]; exact Nat.dvd_mul_right _ _, fun p inside => ?_, ?_, ?_⟩
  · exact clear p ((range p).mp inside).1 ((range p).mp inside).2
  · exact marks.congr fun p _ => by rw [range]
  · refine owns.marks (marks.congr fun p inside => ?_) fun p => ?_
    · rw [owns.bits p inside, range, or_comm, or_assoc]
    · rintro (has | inside)
      · exact owns.allocatable p has
      · exact (clear p ((range p).mp inside).1 ((range p).mp inside).2).1

/-- The word range of `pmm_free` is the range of pages. -/
theorem freeRange_iff {base : UInt64} {pages : Int32} (count : 0 ≤ pages.toInt) (p : Nat) :
    (base >>> 12).toNat ≤ p ∧ p < (base >>> 12 + wordOfInt pages).toNat ↔
      PageRange base pages p := by
  have small := base.toNat_lt
  have upper := pages.toInt_lt
  have first : (base >>> 12).toNat = base.toNat / 4096 := by
    rw [UInt64.toNat_shiftRight, Nat.shiftRight_eq_div_pow]
    rfl
  have word := toNat_wordOfInt count
  rw [toNat_add_of_fits (by omega), first, word, PageRange]

/-- The loop of `pmm_free` takes held frames back; its assertion does not fail. -/
theorem Machine.Owns.freeBits (owns : s.Owns boot held) {base : UInt64} {pages : Int32}
    (count : 0 ≤ pages.toInt) (mine : ∀ p, PageRange base pages p → held p) :
    Meets (pmmFreeBits base pages s)
      (fun s' => s.Marks s' (fun p => ¬ PageRange base pages p ∧ s.Allocated p) ∧
        s'.Owns boot fun p => held p ∧ ¬ PageRange base pages p)
      fun _ => False := by
  refine (clearRange_meets _ _ owns.sized).mono (fun s' marks => ?_) ?_
  · have marked : s.Marks s' fun p => ¬ PageRange base pages p ∧ s.Allocated p :=
      marks.congr fun p _ => by rw [freeRange_iff count]
    refine ⟨marked, owns.marks (marked.congr fun p inside => ?_) fun p has => ?_⟩
    · rw [owns.bits p inside]
      constructor
      · rintro ⟨outside, reserved | has⟩
        · exact Or.inl reserved
        · exact Or.inr ⟨has, outside⟩
      · rintro (reserved | ⟨has, outside⟩)
        · exact ⟨fun inRange => reserved (owns.allocatable p (mine p inRange)), Or.inl reserved⟩
        · exact ⟨outside, Or.inr has⟩
    · exact owns.allocatable p has.1
  · rintro e ⟨p, lower, upper, untracked⟩
    exact untracked (owns.tracked p
      (owns.allocatable p (mine p ((freeRange_iff count p).mp ⟨lower, upper⟩))).1)

/-- The poisoned bytes of `pmm_free` lie in the released frames. -/
theorem frameOf_poison {base : UInt64} {count : Nat} {a : UInt64} (aligned : 4096 ∣ base.toNat)
    (fits : base.toNat + 4096 * count ≤ 2 ^ 64)
    (inside : Span (base + boot.offset) (4096 * count) a) :
    base.toNat / 4096 ≤ frameOf boot a ∧ frameOf boot a < base.toNat / 4096 + count := by
  have shifted : Span base (4096 * count) (a - boot.offset) := by
    rwa [Span, show a - boot.offset - base = a - (base + boot.offset) by grind]
  have here := (span_iff fits).mp shifted
  unfold frameOf
  omega

/-- The `int` product of a page count and the page size, where it is defined. -/
theorem mulInt_meets {pages : Int32} (count : 0 ≤ pages.toInt) :
    Meets (mulInt 4096 pages) (fun length => (wordOfInt length).toNat = 4096 * pages.toInt.toNat)
      fun e => e = .undefined ∧ 2 ^ 19 ≤ pages.toInt := by
  have page : (4096 : Int32).toInt = 4096 := rfl
  unfold mulInt
  rw [page]
  by_cases fits : -2 ^ 31 ≤ 4096 * pages.toInt ∧ 4096 * pages.toInt < 2 ^ 31
  · rw [if_pos fits]
    have product : (4096 * pages).toInt = 4096 * pages.toInt := by
      rw [Int32.toInt_mul, page, Int.bmod_def]
      omega
    change (wordOfInt (4096 * pages)).toNat = _
    rw [toNat_wordOfInt (by omega), product]
    omega
  · rw [if_neg fits]
    exact ⟨rfl, by omega⟩

/-- Frames were released: their bits are cleared, and nothing but the bitmap and the bytes of
these frames was written. -/
structure Freed (boot : Boot) (s t : Machine) (gone : Nat → Prop) : Prop where
  /-- The bitmap stays in its place. -/
  bitmap : t.bitmap = s.bitmap
  /-- The bitmap keeps its size. -/
  size : t.bitmapSize = s.bitmapSize
  /-- The bits after the release. -/
  bits : ∀ p, s.Tracked p → (t.Allocated p ↔ s.Allocated p ∧ ¬ gone p)
  /-- What was written. -/
  writes : s.mem.Writes (fun a => s.InBitmap a ∨ gone (frameOf boot a)) t.mem

/-- `pmm_free` of tracked pages outside the bitmap releases and poisons them; it ends in
undefined behaviour only for a length that is no `int`. -/
theorem pmmFree_meets {base : UInt64} {pages : Int32} (sized : s.Sized)
    (aligned : 4096 ∣ base.toNat) (count : 0 ≤ pages.toInt)
    (fits : base.toNat + 4096 * pages.toInt.toNat ≤ 2 ^ 64)
    (tracked : ∀ p, PageRange base pages p → s.Tracked p)
    (notBitmap : ∀ p, PageRange base pages p → ¬ s.BitmapFrame boot p) :
    Meets (pmmFree boot base pages s) (fun t => Freed boot s t (PageRange base pages))
      fun e => e = .undefined ∧ 2 ^ 19 ≤ pages.toInt := by
  have bounds : ∀ e : Fault, (∃ p, (base >>> 12).toNat ≤ p ∧
      p < (base >>> 12 + wordOfInt pages).toNat ∧ ¬ s.Tracked p) →
      e = .undefined ∧ 2 ^ 19 ≤ pages.toInt := by
    intro e outside
    obtain ⟨p, lower, upper, untracked⟩ := outside
    exact absurd (tracked p ((freeRange_iff count p).mp ⟨lower, upper⟩)) untracked
  apply ((clearRange_meets _ _ sized).mono (fun _ => id) bounds).bind
  intro t marks
  apply (mulInt_meets count).bind
  intro length value
  have poison (a : UInt64) (inside : Span (base + boot.offset) (wordOfInt length).toNat a) :
      PageRange base pages (frameOf boot a) := by
    rw [value] at inside
    exact frameOf_poison aligned fits inside
  have kept : ∀ a, s.InBitmap a → (memset t.mem (base + bootProtoHhdmOffset boot) 0xff
      (wordOfInt length)).byte a = t.mem.byte a := by
    intro a inBitmap
    rw [memset_byte, bootProtoHhdmOffset, if_neg]
    intro inside
    exact notBitmap _ (poison a inside) ⟨a, inBitmap, rfl⟩
  refine ⟨marks.bitmap, marks.size, fun p inBounds => ?_, ?_⟩
  · rw [← freeRange_iff count, and_comm, ← marks.bits p inBounds, Machine.Allocated,
      Machine.Allocated]
    dsimp only
    rw [marks.bitmap, kept _ (inBitmap_of_tracked sized inBounds)]
  · exact (marks.writes.mono fun a => Or.inl).trans
      ((memset_writes _ _ _ _).mono fun a inside => Or.inr (poison a inside))

namespace Freed

variable {t u : Machine} {gone more : Nat → Prop}

/-- Nothing released. -/
theorem refl (boot : Boot) (s : Machine) : Freed boot s s fun _ => False :=
  ⟨rfl, rfl, fun _ _ => (and_iff_left not_false).symm, Memory.Writes.refl⟩

/-- Releases compose. -/
theorem trans (first : Freed boot s t gone) (second : Freed boot t u more) :
    Freed boot s u fun p => gone p ∨ more p where
  bitmap := second.bitmap.trans first.bitmap
  size := second.size.trans first.size
  bits p tracked := by
    rw [second.bits p (by rwa [Machine.Tracked, first.size]), first.bits p tracked, not_or, and_assoc]
  writes := by
    apply (first.writes.mono _).trans (second.writes.mono _)
    · intro a area
      exact area.imp_right Or.inl
    · intro a area
      rw [Machine.InBitmap, first.bitmap, first.size] at area
      exact area.imp_right Or.inr

/-- The released frames may be described in another way. -/
theorem congr (freed : Freed boot s t gone) (same : ∀ p, gone p ↔ more p) :
    Freed boot s t more := by
  rwa [show more = gone from funext fun p => propext (same p).symm]

/-- The bitmap lies in the same frames. -/
theorem bitmapFrame (freed : Freed boot s t gone) (p : Nat) :
    t.BitmapFrame boot p ↔ s.BitmapFrame boot p := by
  simp only [Machine.BitmapFrame, Machine.InBitmap, freed.bitmap, freed.size]

/-- The owners of the released frames hold them no more. -/
theorem owns (owns : s.Owns boot held) (freed : Freed boot s t gone)
    (allocatable : ∀ p, gone p → s.Allocatable boot p) :
    t.Owns boot fun p => held p ∧ ¬ gone p := by
  have same (p : Nat) : t.Allocatable boot p ↔ s.Allocatable boot p := by
    rw [Machine.Allocatable, Machine.Allocatable, freed.bitmapFrame]
  refine ⟨by rw [freed.size]; exact owns.size, fun p usable => ?_, fun p has => ?_, fun p inside => ?_⟩
  · rw [Machine.Tracked, freed.size]
    exact owns.tracked p usable
  · exact (same p).mpr (owns.allocatable p has.1)
  · have tracked : s.Tracked p := by rwa [Machine.Tracked, freed.size] at inside
    rw [same, freed.bits p tracked, owns.bits p tracked]
    constructor
    · intro both
      cases both.1 with
      | inl reserved => exact Or.inl reserved
      | inr has => exact Or.inr ⟨has, both.2⟩
    · intro either
      cases either with
      | inl reserved => exact ⟨Or.inl reserved, fun isGone => reserved (allocatable p isGone)⟩
      | inr has => exact ⟨Or.inr has.1, has.2⟩

end Freed

/-- `pmm_free` takes held frames back and poisons them. -/
theorem Machine.Owns.free (limine : boot.Limine) (owns : s.Owns boot held) {base : UInt64}
    {pages : Int32} (aligned : 4096 ∣ base.toNat) (count : 0 ≤ pages.toInt)
    (mine : ∀ p, PageRange base pages p → held p) :
    Meets (pmmFree boot base pages s)
      (fun t => Freed boot s t (PageRange base pages) ∧
        t.Owns boot fun p => held p ∧ ¬ PageRange base pages p)
      fun e => e = .undefined ∧ 2 ^ 19 ≤ pages.toInt := by
  have allocatable : ∀ p, PageRange base pages p → s.Allocatable boot p :=
    fun p inside => owns.allocatable p (mine p inside)
  have fits : base.toNat + 4096 * pages.toInt.toNat ≤ 2 ^ 64 := by
    by_cases none : pages.toInt.toNat = 0
    · have := base.toNat_lt
      omega
    · have last := limine.usable_lt (allocatable (base.toNat / 4096 + pages.toInt.toNat - 1)
        ⟨by omega, by omega⟩).1
      omega
  apply (pmmFree_meets owns.sized aligned count fits
    (fun p inside => owns.tracked p (allocatable p inside).1)
    fun p inside => (allocatable p inside).2.2).mono _ fun _ => id
  intro t freed
  exact ⟨freed, freed.owns owns allocatable⟩

/-! ## Free frames -/

/-- The frame has a clear bit. -/
def Machine.Free (s : Machine) (p : Nat) : Prop := s.Tracked p ∧ ¬ s.Allocated p

/-- At least so many frames are free. -/
def Machine.Spare (s : Machine) (count : Nat) : Prop :=
  ∃ pages : List Nat, pages.Nodup ∧ count ≤ pages.length ∧ ∀ p ∈ pages, s.Free p

/-- The steps between two machines keep the bitmap in its place and use up at most so many
free frames. -/
structure Machine.Uses (s s' : Machine) (count : Nat) : Prop where
  /-- The bitmap stays in its place. -/
  bitmap : s'.bitmap = s.bitmap
  /-- The bitmap keeps its size. -/
  size : s'.bitmapSize = s.bitmapSize
  /-- What is left. -/
  spare : ∀ more, s.Spare (more + count) → s'.Spare more

/-- The allocator panicked with fewer free frames than needed. -/
def Machine.Exhausted (s : Machine) (count : Nat) (e : Fault) : Prop :=
  e = .panic "Out of Memory!" ∧ ¬ s.Spare count

/-- Fewer free frames are spare, too. -/
theorem Machine.Spare.mono {count fewer : Nat} (spare : s.Spare count) (le : fewer ≤ count) :
    s.Spare fewer := by
  obtain ⟨pages, distinct, enough, free⟩ := spare
  exact ⟨pages, distinct, Nat.le_trans le enough, free⟩

/-- No step uses up nothing. -/
theorem Machine.Uses.refl (s : Machine) : s.Uses s 0 := ⟨rfl, rfl, fun _ => id⟩

/-- Steps use up what their parts use up. -/
theorem Machine.Uses.trans {s'' : Machine} {first second : Nat} (head : s.Uses s' first)
    (tail : s'.Uses s'' second) : s.Uses s'' (second + first) where
  bitmap := tail.bitmap.trans head.bitmap
  size := tail.size.trans head.size
  spare more spare := by
    apply tail.spare
    apply head.spare
    rwa [Nat.add_assoc]

/-- Steps may be said to use up more than they do. -/
theorem Machine.Uses.mono {count more : Nat} (uses : s.Uses s' count) (le : count ≤ more) :
    s.Uses s' more :=
  ⟨uses.bitmap, uses.size, fun rest spare => uses.spare rest (spare.mono (by omega))⟩

/-- Whoever needs less is exhausted later. -/
theorem Machine.Exhausted.mono {count more : Nat} {e : Fault} (exhausted : s.Exhausted count e)
    (le : count ≤ more) : s.Exhausted more e :=
  ⟨exhausted.1, fun spare => exhausted.2 (spare.mono le)⟩

/-- A panic after some steps. -/
theorem Machine.Exhausted.after {first second : Nat} {e : Fault} (head : s.Uses s' first)
    (exhausted : s'.Exhausted second e) : s.Exhausted (second + first) e :=
  ⟨exhausted.1, fun spare => exhausted.2 (head.spare second spare)⟩

/-- The allocation of one frame uses up one free frame. -/
theorem Machine.Uses.of_marks {c : Nat} (marks : s.Marks s' fun p => p = c ∨ s.Allocated p) :
    s.Uses s' 1 := by
  refine ⟨marks.bitmap, marks.size, fun more spare => ?_⟩
  obtain ⟨pages, distinct, enough, free⟩ := spare
  refine ⟨pages.erase c, distinct.erase c, ?_, fun p member => ?_⟩
  · by_cases member : c ∈ pages
    · have := List.length_erase_of_mem member
      omega
    · rw [List.erase_of_not_mem member]
      omega
  · have isFree := free p (List.mem_of_mem_erase member)
    refine ⟨(marks.tracked p).mpr isFree.1, fun allocated => ?_⟩
    cases (marks.bits p isFree.1).mp allocated with
    | inl same =>
      rw [same] at member
      exact distinct.not_mem_erase member
    | inr old => exact isFree.2 old

/-- A write outside the bitmap uses up no frame. -/
theorem Machine.Uses.of_write (sized : s.Sized) {m : Memory}
    (same : ∀ a, s.InBitmap a → m.byte a = s.mem.byte a) : s.Uses { s with mem := m } 0 := by
  refine ⟨rfl, rfl, fun more spare => ?_⟩
  obtain ⟨pages, distinct, enough, free⟩ := spare
  refine ⟨pages, distinct, enough, fun p member => ⟨(free p member).1, fun allocated => ?_⟩⟩
  apply (free p member).2
  rwa [Machine.Allocated, same _ (inBitmap_of_tracked sized (free p member).1)] at allocated

/-- A free frame is a run of one. -/
theorem Machine.Spare.freeRun (spare : s.Spare 1) : ∃ b, s.FreeRun b 1 := by
  obtain ⟨pages, -, enough, free⟩ := spare
  cases pages with
  | nil => exact absurd enough (Nat.not_succ_le_zero 0)
  | cons p rest =>
    refine ⟨p, fun q lower upper => ?_⟩
    rw [show q = p from Nat.le_antisymm (Nat.le_of_lt_succ upper) lower]
    exact free p List.mem_cons_self

/-- Only an exhausted allocator cannot hand out one frame. -/
theorem exhausted_of_no_run {e : Fault} (fails : s.Fails 1 e) : s.Exhausted 1 e := by
  obtain ⟨panic, none⟩ := fails.of_pos (by decide)
  refine ⟨panic, fun spare => ?_⟩
  obtain ⟨p, run⟩ := spare.freeRun
  exact none p run

/-! ## Runs -/

/-- Machines and held frames reached from `pmm_init` by allocations of at least one page,
releases of held pages, and writes outside the bitmap. Where the length of the poisoned
range of a release is no `int`, only the bitmap is considered. -/
inductive Owned (boot : Boot) : Machine → (Nat → Prop) → Prop
  /-- `pmm_init` returned. -/
  | init {mem : Memory} {s : Machine} (returned : pmmInit boot (Machine.start mem) = .ok s) :
    Owned boot s fun _ => False
  /-- `pmm_alloc` returned. -/
  | alloc {s s' : Machine} {held : Nat → Prop} {base : UInt64} {pages : Int32}
    (run : Owned boot s held) (positive : 1 ≤ pages.toInt)
    (returned : pmmAlloc pages s = .ok (base, s')) :
    Owned boot s' fun p => held p ∨ PageRange base pages p
  /-- `pmm_free` returned. -/
  | free {s s' : Machine} {held : Nat → Prop} {base : UInt64} {pages : Int32}
    (run : Owned boot s held) (aligned : 4096 ∣ base.toNat) (count : 0 ≤ pages.toInt)
    (mine : ∀ p, PageRange base pages p → held p) (returned : pmmFree boot base pages s = .ok s') :
    Owned boot s' fun p => held p ∧ ¬ PageRange base pages p
  /-- The bitmap part of `pmm_free` returned. -/
  | freeBits {s s' : Machine} {held : Nat → Prop} {base : UInt64} {pages : Int32}
    (run : Owned boot s held) (count : 0 ≤ pages.toInt)
    (mine : ∀ p, PageRange base pages p → held p) (returned : pmmFreeBits base pages s = .ok s') :
    Owned boot s' fun p => held p ∧ ¬ PageRange base pages p
  /-- Some code wrote outside the bitmap. -/
  | write {s : Machine} {held : Nat → Prop} {m : Memory} (run : Owned boot s held)
    (same : ∀ a, s.InBitmap a → m.byte a = s.mem.byte a) : Owned boot { s with mem := m } held

/-- Every run keeps the relation between the bitmap and the owners. -/
theorem Owned.owns (limine : boot.Limine) (run : Owned boot s held) : s.Owns boot held := by
  induction run with
  | init returned => exact ((pmmInit_meets limine _).of_ok returned).owns limine
  | alloc _ _ returned ih => exact ((ih.alloc limine).of_ok returned).2.2.2
  | free _ aligned count mine returned ih => exact ((ih.free limine aligned count mine).of_ok returned).2
  | freeBits _ count mine returned ih => exact ((ih.freeBits count mine).of_ok returned).2
  | write _ same ih => exact ih.write same

/-- Exclusive ownership: in every reachable state the set bits are the reserved frames and
the held ones; `pmm_alloc` returns consecutive frames that are neither reserved nor held,
or panics; and the release of held pages fails no assertion. -/
theorem owned_exclusive (limine : boot.Limine) (run : Owned boot s held) :
    (∀ p, s.Tracked p →
      (s.Allocated p ↔ ¬ boot.UsablePage p ∨ p = 0 ∨ s.BitmapFrame boot p ∨ held p)) ∧
    (∀ pages : Int32, 1 ≤ pages.toInt →
      Meets (pmmAlloc pages s)
        (fun r => 4096 ∣ r.1.toNat ∧ ∀ p, PageRange r.1 pages p →
          boot.UsablePage p ∧ p ≠ 0 ∧ ¬ s.BitmapFrame boot p ∧ ¬ held p)
        fun e => e = .panic "Out of Memory!") ∧
    ∀ (base : UInt64) (pages : Int32), 0 ≤ pages.toInt → (∀ p, PageRange base pages p → held p) →
      (∃ s', pmmFreeBits base pages s = .ok s') ∧
      (4096 ∣ base.toNat → pages.toInt < 2 ^ 19 → ∃ s', pmmFree boot base pages s = .ok s') := by
  have owns := run.owns limine
  refine ⟨fun p tracked => ?_, fun pages positive => ?_, fun base pages count mine => ⟨?_, ?_⟩⟩
  · rw [owns.bits p tracked, Machine.Allocatable, not_and_or, not_and_or, not_not, not_not, or_assoc,
      or_assoc]
  · refine (owns.alloc limine).mono (fun r allocated => ⟨allocated.1, fun p inside => ?_⟩)
      fun _ fails => (fails.of_pos (by omega)).1
    obtain ⟨⟨usable, nonzero, notBitmap⟩, free⟩ := allocated.2.1 p inside
    exact ⟨usable, nonzero, notBitmap, free⟩
  · obtain ⟨s', returned, -⟩ := (owns.freeBits count mine).returns
    exact ⟨s', returned⟩
  · intro aligned small
    obtain ⟨s', returned, -⟩ := ((owns.free limine aligned count mine).mono (fun _ => id)
      fun e fault => absurd fault.2 (Int.not_le.mpr small)).returns
    exact ⟨s', returned⟩

/-- The first allocation on the small memory map returns page two and leaves eight frames. -/
theorem smallBoot_allocates : ∃ s s', pmmInit smallBoot (Machine.start zeroMemory) = .ok s ∧
    pmmAlloc 1 s = .ok (0x2000, s') ∧ s'.bitmapSize = 2 ∧ s'.Spare 8 := by
  obtain ⟨s, initialised, -⟩ := smallBoot_returns
  have passed : passes (fun r => decide (r.1 = 0x2000 ∧ r.2.bitmapSize = 2 ∧
      ∀ p ∈ smallBootFree.tail, r.2.Tracked p ∧ ¬ r.2.Allocated p))
      (pmmInit smallBoot (Machine.start zeroMemory) >>= pmmAlloc 1) = true := by decide +kernel
  rw [initialised] at passed
  obtain ⟨r, returned, tested⟩ := exists_of_passes passed
  obtain ⟨base, s'⟩ := r
  obtain ⟨rfl, size, free⟩ := of_decide_eq_true tested
  exact ⟨s, s', initialised, returned, size, smallBootFree.tail, by decide, by decide, free⟩

/-- After one allocation on the small memory map the page is held and can be released. -/
theorem owned_exclusive_smallBoot : ∃ s s', pmmAlloc 1 s = .ok (0x2000, s') ∧
    Owned smallBoot s' (fun p => False ∨ PageRange 0x2000 1 p) ∧
    (s'.Tracked 2 → s'.Allocated 2) ∧ ∃ s'', pmmFree smallBoot 0x2000 1 s' = .ok s'' := by
  obtain ⟨s, s', initialised, allocated, -⟩ := smallBoot_allocates
  have run := (Owned.init initialised).alloc (by decide) allocated
  have exclusive := owned_exclusive smallBoot_limine run
  refine ⟨s, s', allocated, run, fun tracked => ?_, ?_⟩
  · exact (exclusive.1 2 tracked).mpr (Or.inr (Or.inr (Or.inr (Or.inr ⟨by decide, by decide⟩))))
  · exact (exclusive.2.2 0x2000 1 (by decide) fun p => Or.inr).2 (by decide) (by decide)

end Symphony
