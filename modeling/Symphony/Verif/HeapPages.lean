import Symphony.Verif.HeapRun
import Symphony.Verif.Ownership

/-!
# Pages for the heap

The page frame allocator is a source of fresh pages: a positive request halts with its panic or
returns consecutive frames that nobody holds. The heap then owns the frames of its
regions, so it never writes to the bitmap, and the bitmap's frames are never its own. A
request for no pages or for a negative number of them never returns.
-/

namespace Symphony

variable {boot : Boot} {s : Machine}

/-- The heap holds the frames of its regions. -/
def PagesReady (boot : Boot) (s : Machine) (regions : List Region) : Prop :=
  ∃ held, s.Owns boot held ∧ ∀ region ∈ regions, 0 < region.extent.len ∧
    region.extent.stop < 2 ^ 64 ∧ ∀ a : UInt64, region.extent.Has a.toNat → held (frameOf boot a)

/-- Regions lie apart from the bitmap. -/
theorem PagesReady.not_inBitmap {regions : List Region} (ready : PagesReady boot s regions)
    {a : UInt64} (inside : InRegions regions a) : ¬ s.InBitmap a := by
  obtain ⟨held, owns, mine⟩ := ready
  obtain ⟨region, inList, has⟩ := inside
  intro inBitmap
  exact (owns.allocatable _ ((mine region inList).2.2 a has)).2.2 ⟨a, inBitmap, rfl⟩

/-- A request for no pages or fewer never returns. -/
theorem pmmAlloc_nonpositive (sized : s.Sized) {pages : Int32} (none : pages.toInt ≤ 0) :
    ∃ e, pmmAlloc pages s = .error e := by
  have meets := pmmAlloc_meets pages sized
  cases run : pmmAlloc pages s with
  | ok out =>
    obtain ⟨base, least, -⟩ := meets.of_ok run
    exact absurd least.1 (Int.not_lt.mpr none)
  | error e => exact ⟨e, rfl⟩

/-- The bytes of a region of frames. -/
theorem region_frames {frames : UInt64} {pages : Int32} (aligned : 4096 ∣ frames.toNat)
    (fits : boot.offset.toNat + frames.toNat + 4096 * pages.toInt.toNat < 2 ^ 64) {a : UInt64}
    (has : (⟨frames + boot.offset, pages⟩ : Region).extent.Has a.toNat) :
    PageRange frames pages (frameOf boot a) := by
  have base : (frames + boot.offset).toNat = frames.toNat + boot.offset.toNat :=
    toNat_add_of_fits (by omega)
  obtain ⟨lower, upper⟩ := has
  change (frames + boot.offset).toNat ≤ a.toNat at lower
  change a.toNat < (frames + boot.offset).toNat + 4096 * pages.toInt.toNat at upper
  have distance := toNat_sub_cases a boot.offset
  unfold PageRange frameOf
  omega

/-- The page frame allocator is a source of fresh pages. -/
theorem pmmAlloc_fresh (limine : boot.Limine) (direct : boot.Direct) :
    PageSource.Fresh boot pmmAlloc (PagesReady boot) where
  alloc := by
    intro s regions pages ready positive frames s' returned
    have ready' := ready
    obtain ⟨held, owns, mine⟩ := ready
    obtain ⟨aligned, fresh, marks, owns'⟩ := (owns.alloc limine).of_ok returned
    dsimp only at aligned fresh
    obtain ⟨region, isRegion⟩ : ∃ region : Region, region = ⟨frames + boot.offset, pages⟩ := ⟨_, rfl⟩
    rw [← isRegion]
    have last := fresh (frames.toNat / 4096 + pages.toInt.toNat - 1) ⟨by omega, by omega⟩
    have first := fresh (frames.toNat / 4096) ⟨by omega, by omega⟩
    have fits := direct _ last.1.1
    have nonzero := first.1.2.1
    have whole : boot.offset.toNat + frames.toNat + 4096 * pages.toInt.toNat < 2 ^ 64 := by omega
    have base : (frames + boot.offset).toNat = frames.toNat + boot.offset.toNat :=
      toNat_add_of_fits (by omega)
    have own (a : UInt64) (has : region.extent.Has a.toNat) : PageRange frames pages (frameOf boot a) := by
      rw [isRegion] at has
      exact region_frames aligned whole has
    have positiveBase : 0 < region.base.toNat := by
      rw [isRegion]
      change 0 < (frames + boot.offset).toNat
      omega
    have length : region.extent.len = 4096 * pages.toInt.toNat := by rw [isRegion]; rfl
    have stop : region.extent.stop < 2 ^ 64 := by
      rw [isRegion]
      change (frames + boot.offset).toNat + 4096 * pages.toInt.toNat < 2 ^ 64
      omega
    refine ⟨positiveBase, stop, ?_, ?_, ?_⟩
    · intro old inList
      obtain ⟨some, oldStop, oldMine⟩ := mine old inList
      apply Interval.apart_of_disjoint some (by omega)
      intro a hasOld hasNew
      have small : a < 2 ^ 64 := Nat.lt_trans hasOld.2 oldStop
      have word : (UInt64.ofNat a).toNat = a := toNat_ofNat_of_fits small
      have heldOld := oldMine (UInt64.ofNat a) (by rw [word]; exact hasOld)
      exact (fresh _ (own (UInt64.ofNat a) (by rw [word]; exact hasNew))).2 heldOld
    · apply marks.writes.mono
      intro a inBitmap inside
      obtain ⟨x, inList, has⟩ := inside
      rw [List.mem_append, List.mem_singleton] at inList
      rcases inList with old | rfl
      · exact ready'.not_inBitmap ⟨x, old, has⟩ inBitmap
      · exact (fresh _ (own a has)).1.2.2 ⟨a, inBitmap, rfl⟩
    · refine ⟨_, owns', ?_⟩
      intro x inList
      rw [List.mem_append, List.mem_singleton] at inList
      rcases inList with old | rfl
      · obtain ⟨some, oldStop, oldMine⟩ := mine x old
        exact ⟨some, oldStop, fun a has => Or.inl (oldMine a has)⟩
      · exact ⟨by omega, stop, fun a has => Or.inr (own a has)⟩
  halts := by
    intro s regions pages ready positive e failed
    obtain ⟨held, owns, -⟩ := ready
    exact (((owns.alloc limine).of_error failed).of_pos positive).1
  write := by
    intro s regions m ready writes
    have ready' := ready
    obtain ⟨held, owns, mine⟩ := ready
    refine ⟨held, owns.write fun a inBitmap => ?_, mine⟩
    apply writes.byte_eq
    intro inside
    exact ready'.not_inBitmap inside inBitmap

/-- Nothing is held when `pmm_init` returns. -/
theorem pagesReady_init (limine : boot.Limine) {mem : Memory}
    (returned : pmmInit boot (Machine.start mem) = .ok s) : PagesReady boot s [] :=
  ⟨_, (Owned.init returned).owns limine, by simp⟩

/-! ## A machine with room for the heap -/

/-- A memory map with sixty-three usable pages. -/
def heapBoot : Boot where
  offset := 0xffff800000000000
  entries := [⟨0, 0x1000, .reserved⟩, ⟨0x1000, 0x3f000, .usable⟩]
  count_fits := by decide
  physicalBase := 0x100000
  virtualBase := 0xffffffff80000000
  kernelSize := 0x1000

/-- The memory map has the guarantees of the boot protocol. -/
theorem heapBoot_limine : heapBoot.Limine where
  range := by decide
  sorted := by decide
  aligned := by decide
  disjoint := by decide

/-- The direct map of the memory does not wrap. -/
theorem heapBoot_direct : heapBoot.Direct := by
  rintro p ⟨entry, inMap, -, -, upper⟩
  have below : ∀ entry ∈ heapBoot.entries, entry.stop ≤ 0x40000 := by decide
  have last := below entry inMap
  have offset : heapBoot.offset.toNat = 0xffff800000000000 := rfl
  omega

/-- The page frame allocator of the memory is fresh. -/
theorem heapBoot_fresh : PageSource.Fresh heapBoot pmmAlloc (PagesReady heapBoot) :=
  pmmAlloc_fresh heapBoot_limine heapBoot_direct

/-- `pmm_init` returns on the memory and leaves frames two to sixty-three free. -/
theorem heapBoot_returns : ∃ s, pmmInit heapBoot (Machine.start zeroMemory) = .ok s ∧
    s.FreeRun 2 62 := by
  have passed : passes (fun s => decide (∀ p ∈ List.range' 2 62, s.Tracked p ∧ ¬ s.Allocated p))
      (pmmInit heapBoot (Machine.start zeroMemory)) = true := by decide +kernel
  obtain ⟨s, returned, tested⟩ := exists_of_passes passed
  refine ⟨s, returned, fun p lower upper => ?_⟩
  exact of_decide_eq_true tested p (List.mem_range'_1.mpr ⟨lower, upper⟩)

/-- The heap of the machine is initialised. -/
theorem heapBoot_runs : ∃ s h, pmmInit heapBoot (Machine.start zeroMemory) = .ok s ∧
    PagesReady heapBoot s [] ∧ kheapInit heapBoot pmmAlloc s = .ok h := by
  obtain ⟨s, returned, free⟩ := heapBoot_returns
  have ready := pagesReady_init heapBoot_limine returned
  refine ⟨s, ?_⟩
  cases allocated : pmmAlloc kheapInitPages s with
  | ok out => exact ⟨_, returned, ready, by rw [kheapInit, allocated]; rfl⟩
  | error e =>
    have owns := (Owned.init returned).owns heapBoot_limine
    have none := (((pmmAlloc_meets kheapInitPages owns.sized).of_error allocated).of_pos
      (by decide)).2
    have pages : kheapInitPages.toInt.toNat = 16 := by decide
    rw [pages] at none
    exact absurd (fun p lower upper => free p lower (by omega)) (none 2)

/-- The machine serves a first request from the only block of its heap. -/
theorem heapBoot_kmalloc {size : UInt64} (small : size.toNat ≤ 2 ^ 42)
    (room : (kmallocRound size).toNat ≤ 65504) : ∃ machine, PagesReady heapBoot machine [] ∧
    ∃ h h' start cs d, HeapInv h [initialBlock start] ∧
      Taken h h' [initialBlock start] cs (kmallocRound size) d ∧
      TakenFrom (kmallocRound size) [] (initialBlock start) [] cs d ∧
      HeapRun heapBoot pmmAlloc machine ⟨h, [], [], fun _ => none⟩ ∧
      HeapRun heapBoot pmmAlloc machine ⟨h', [⟨d.pointer, size⟩], [], fun _ => none⟩ := by
  obtain ⟨machine, h, -, ready, run⟩ := heapBoot_runs
  obtain ⟨start, inv, -⟩ := (kheapInit_meets heapBoot_fresh ready).of_ok run
  obtain ⟨h', cs, d, allocated, taken, origin⟩ := inv.kmalloc_initial room
  have first := HeapRun.init h run
  exact ⟨machine, ready, h, h', start, cs, d, inv, taken, origin, first,
    first.call _ _ (.kmalloc size) small (perform_kmalloc allocated)⟩

/-- A session of the machine with one live allocation. -/
theorem heapBoot_session : ∃ s : Machine, PagesReady heapBoot s [] ∧ ∃ t : Session,
    HeapRun heapBoot pmmAlloc s t ∧ ∃ ptr, t.live = [⟨ptr, 100⟩] := by
  have small : (100 : UInt64).toNat ≤ 2 ^ 42 := by decide
  obtain ⟨s, ready, h, h', start, cs, d, -, -, -, -, run⟩ := heapBoot_kmalloc small (by decide)
  exact ⟨s, ready, _, run, d.pointer, rfl⟩

end Symphony
