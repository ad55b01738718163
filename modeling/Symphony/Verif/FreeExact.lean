import Symphony.Verif.Ownership
import Symphony.Verif.PmmStart

/-!
# What a release writes

`pmm_free` of a block of `pmm_alloc` clears the bits of its frames and poisons their bytes, and
writes nothing else. It does so exactly where the length of the block is an `int`; from 2^19
pages on the multiplication overflows.
-/

namespace Symphony

variable {boot : Boot} {s s' t u : Machine} {held more : Nat → Prop}

/-- The bytes of a block of pages behind the offset of the kernel's mapping. -/
def BlockBytes (boot : Boot) (base : UInt64) (pages : Int32) : UInt64 → Prop :=
  Span (base + boot.offset) (4096 * pages.toInt.toNat)

instance (boot : Boot) (base : UInt64) (pages : Int32) : DecidablePred (BlockBytes boot base pages) :=
  fun a => inferInstanceAs (Decidable (Span _ _ a))

/-- A block was released: its bits were set and are cleared, its bytes are poisoned, and no other
bit and no other byte has changed. -/
structure Poisoned (boot : Boot) (t u : Machine) (base : UInt64) (pages : Int32) : Prop where
  /-- The bits of the block were set. -/
  set : ∀ p, PageRange base pages p → t.Tracked p ∧ t.Allocated p
  /-- The bits after the release. -/
  bits : ∀ p, t.Tracked p → (u.Allocated p ↔ t.Allocated p ∧ ¬ PageRange base pages p)
  /-- The bytes of the block. -/
  poison : ∀ a, BlockBytes boot base pages a → u.mem.byte a = 0xff
  /-- The bytes beside the block and the bitmap. -/
  rest : ∀ a, ¬ BlockBytes boot base pages a → ¬ t.InBitmap a → u.mem.byte a = t.mem.byte a
  /-- No byte of the block belongs to the bitmap. -/
  bitmap : ∀ a, BlockBytes boot base pages a → ¬ t.InBitmap a
  /-- Every byte of the block lies in one of its frames. -/
  frames : ∀ a, BlockBytes boot base pages a → PageRange base pages (frameOf boot a)

/-- What `pmm_free` returned wrote the poison behind the cleared bits. -/
theorem pmmFree_byte {base : UInt64} {pages : Int32} (sized : t.Sized) (count : 0 ≤ pages.toInt)
    (returned : pmmFree boot base pages t = .ok u) :
    (∀ a, BlockBytes boot base pages a → u.mem.byte a = 0xff) ∧
      ∀ a, ¬ BlockBytes boot base pages a → ¬ t.InBitmap a → u.mem.byte a = t.mem.byte a := by
  obtain ⟨cleared, bits, returned⟩ := bind_eq_ok.mp returned
  obtain ⟨length, product, returned⟩ := bind_eq_ok.mp returned
  cases returned
  have marks := (clearRange_meets _ _ sized).of_ok bits
  have value := (mulInt_meets count).of_ok product
  have byte (a : UInt64) : (memset cleared.mem (base + bootProtoHhdmOffset boot) 0xff
      (wordOfInt length)).byte a = if BlockBytes boot base pages a then 0xff else cleared.mem.byte a := by
    rw [memset_byte, value]
    rfl
  constructor
  · intro a inside
    rw [byte, if_pos inside]
  · intro a outside notBitmap
    rw [byte, if_neg outside]
    exact marks.writes.byte_eq notBitmap

/-- The bytes of held pages lie in these pages. -/
theorem Machine.Owns.frameOf_block (limine : boot.Limine) (owns : t.Owns boot more) {base : UInt64}
    {pages : Int32} (aligned : 4096 ∣ base.toNat) (mine : ∀ p, PageRange base pages p → more p)
    {a : UInt64} (inside : BlockBytes boot base pages a) :
    PageRange base pages (frameOf boot a) := by
  have some : 0 < pages.toInt.toNat := by
    refine Nat.pos_of_ne_zero fun none => ?_
    rw [BlockBytes, none] at inside
    exact span_zero _ _ inside
  have last := limine.usable_lt (owns.allocatable (base.toNat / 4096 + pages.toInt.toNat - 1)
    (mine _ ⟨by omega, by omega⟩)).1
  exact frameOf_poison aligned (by omega) inside

/-- A release of held pages that returns is a release of exactly these pages. -/
theorem Machine.Owns.poisoned (limine : boot.Limine) (owns : t.Owns boot more) {base : UInt64}
    {pages : Int32} (aligned : 4096 ∣ base.toNat) (count : 0 ≤ pages.toInt)
    (mine : ∀ p, PageRange base pages p → more p) (returned : pmmFree boot base pages t = .ok u) :
    Poisoned boot t u base pages := by
  obtain ⟨freed, -⟩ := (owns.free limine aligned count mine).of_ok returned
  obtain ⟨poison, rest⟩ := pmmFree_byte owns.sized count returned
  have frames (a : UInt64) (inside : BlockBytes boot base pages a) :=
    owns.frameOf_block limine aligned mine inside
  refine ⟨fun p inside => ?_, freed.bits, poison, rest, fun a inside inBitmap => ?_, frames⟩
  · have allocatable := owns.allocatable p (mine p inside)
    have tracked := owns.tracked p allocatable.1
    exact ⟨tracked, (owns.bits p tracked).mpr (Or.inr (mine p inside))⟩
  · exact (owns.allocatable _ (mine _ (frames a inside))).2.2 ⟨a, inBitmap, rfl⟩

/-- From 2^19 pages on the length of a block is no `int`. -/
theorem mulInt_page_overflow {pages : Int32} (large : 2 ^ 19 ≤ pages.toInt) :
    mulInt 4096 pages = .error .undefined := by
  have page : (4096 : Int32).toInt = 4096 := rfl
  unfold mulInt
  rw [page, if_neg (by omega)]

/-- A block of 2^19 pages is not released. -/
theorem pmmFree_large {base : UInt64} {pages : Int32} (large : 2 ^ 19 ≤ pages.toInt) :
    pmmFree boot base pages t ≠ .ok u := by
  rw [pmmFree, mulInt_page_overflow large]
  intro returned
  obtain ⟨cleared, -, overflow⟩ := bind_eq_ok.mp returned
  cases overflow

/-- For every state of the allocator and every block that `pmm_alloc` returned in it, `pmm_free`
in a state where the block is still held releases exactly the block, where it has less than 2^19
pages and only there. -/
theorem pmmFree_poisons (limine : boot.Limine) (run : Owned boot s held) {pages : Int32}
    (positive : 1 ≤ pages.toInt) {base : UInt64} (allocated : pmmAlloc pages s = .ok (base, s'))
    (later : Owned boot t more) (mine : ∀ p, PageRange base pages p → more p) :
    (∃ u, pmmFree boot base pages t = .ok u ∧ Poisoned boot t u base pages) ↔
      pages.toInt < 2 ^ 19 := by
  have aligned := (((run.owns limine).alloc limine).of_ok allocated).1
  have owns := later.owns limine
  have count : 0 ≤ pages.toInt := by omega
  constructor
  · rintro ⟨u, returned, -⟩
    by_contra large
    exact pmmFree_large (Int.not_lt.mp large) returned
  · intro small
    obtain ⟨u, returned, -⟩ := ((owns.free limine aligned count mine).mono (fun _ => id)
      fun e fault => absurd fault.2 (Int.not_le.mpr small)).returns
    exact ⟨u, returned, owns.poisoned limine aligned count mine returned⟩

/-- The first page of the small memory map is released exactly. -/
theorem pmmFree_poisons_smallBoot : ∃ s s', pmmAlloc 1 s = .ok (0x2000, s') ∧
    ∃ u, pmmFree smallBoot 0x2000 1 s' = .ok u ∧ Poisoned smallBoot s' u 0x2000 1 := by
  obtain ⟨s, s', initialised, allocated, -⟩ := smallBoot_allocates
  have run := Owned.init initialised
  have later := run.alloc (by decide) allocated
  exact ⟨s, s', allocated, (pmmFree_poisons smallBoot_limine run (by decide) allocated later
    fun p => Or.inr).mpr (by decide)⟩

/-! ## A block of two gibibytes -/

/-- A memory map with two usable entries of two gibibytes each. -/
def wideBoot : Boot where
  offset := 0xffff800000000000
  entries := [⟨0x100000, 0x80000000, .usable⟩, ⟨0x100000000, 0x80000000, .usable⟩]
  count_fits := by decide
  physicalBase := 0x4000
  virtualBase := 0xffffffff80000000
  kernelSize := 0x2800

/-- The map has the guarantees of the boot protocol. -/
theorem wideBoot_limine : wideBoot.Limine := ⟨by decide, by decide, by decide, by decide⟩

/-- `pmm_init` returns on the map. -/
theorem wideBoot_returns : ∃ s, pmmInit wideBoot (Machine.start zeroMemory) = .ok s := by
  have room : wideBoot.HasRoom := ⟨⟨0x100000, 0x80000000, .usable⟩, by decide, by decide⟩
  apply returns_of_accepted wideBoot_limine zeroMemory room
  refine ⟨⟨⟨0x100000000, 0x80000000, .usable⟩, by decide, by decide⟩, by decide, by decide, ?_⟩
  intro entry first
  have value : wideBoot.firstRoom wideBoot.bitmapBytes = some ⟨0x100000, 0x80000000, .usable⟩ := by
    decide
  rw [value] at first
  cases first
  decide

/-- The bitmap lies in one of the entries, and all 2^19 pages of the other one are free. -/
theorem wideBoot_freeRun (initialised : wideBoot.Initialised s) : ∃ base, s.FreeRun base (2 ^ 19) := by
  obtain ⟨entry, inMap, -, inEntry⟩ := initialised.placed
  have free (other : LimineMemmapEntry) (usable : other ∈ wideBoot.entries ∧ other.type = .usable)
      {p : Nat} (inside : other.HasPage p) (nonzero : p ≠ 0) (apart : ¬ entry.HasPage p) :
      s.Tracked p ∧ ¬ s.Allocated p := by
    have isUsable : wideBoot.UsablePage p := ⟨other, usable.1, usable.2, inside⟩
    have tracked := initialised.tracked p isUsable
    refine ⟨tracked, fun set => ?_⟩
    rcases (initialised.bits p tracked).mp set with notUsable | zero | inBitmap
    · exact notUsable isUsable
    · exact nonzero zero
    · exact apart (inEntry p inBitmap).1
  have either : entry = ⟨0x100000, 0x80000000, .usable⟩ ∨ entry = ⟨0x100000000, 0x80000000, .usable⟩ := by
    simpa [wideBoot] using inMap
  have low (p : Nat) : LimineMemmapEntry.HasPage ⟨0x100000, 0x80000000, .usable⟩ p ↔
      0x100 ≤ p ∧ p < 0x80100 := by
    change 0x100000 ≤ 4096 * p ∧ 4096 * (p + 1) ≤ 0x80100000 ↔ _
    omega
  have high (p : Nat) : LimineMemmapEntry.HasPage ⟨0x100000000, 0x80000000, .usable⟩ p ↔
      0x100000 ≤ p ∧ p < 0x180000 := by
    change 0x100000000 ≤ 4096 * p ∧ 4096 * (p + 1) ≤ 0x180000000 ↔ _
    omega
  rcases either with rfl | rfl
  · refine ⟨0x100000, fun p lower upper => ?_⟩
    refine free ⟨0x100000000, 0x80000000, .usable⟩ (by decide) ((high p).mpr (by omega)) (by omega) ?_
    rw [low]
    omega
  · refine ⟨0x100, fun p lower upper => ?_⟩
    refine free ⟨0x100000, 0x80000000, .usable⟩ (by decide) ((low p).mpr (by omega)) (by omega) ?_
    rw [high]
    omega

/-- A block of 2^19 pages is allocated, and the length overflows when it is released. -/
theorem wideBoot_overflows : ∃ s s' base, pmmInit wideBoot (Machine.start zeroMemory) = .ok s ∧
    pmmAlloc 524288 s = .ok (base, s') ∧ pmmFree wideBoot base 524288 s' = .error .undefined := by
  obtain ⟨s, returned⟩ := wideBoot_returns
  have initialised := (pmmInit_meets wideBoot_limine _).of_ok returned
  have owns := initialised.owns wideBoot_limine
  obtain ⟨first, run⟩ := wideBoot_freeRun initialised
  obtain ⟨⟨base, s'⟩, allocated, result⟩ :=
    ((owns.alloc wideBoot_limine : Meets (pmmAlloc 524288 s) _ _).mono (fun _ => id)
      fun e fault => (fault.of_pos (by decide)).2 first run).returns
  obtain ⟨-, -, -, holds⟩ := result
  obtain ⟨cleared, bits, -⟩ := (holds.freeBits (by decide) fun p => Or.inr).returns
  refine ⟨s, s', base, returned, allocated, ?_⟩
  rw [pmmFree, bits, ok_bind, mulInt_page_overflow (by decide)]
  rfl

end Symphony
