import Symphony.Verif.HeapPages

/-!
# Size arithmetic of `kmalloc`

Four computations on a request may wrap: the rounding to 16 bytes, the sum with the header,
the rounding to pages, and the conversion of the page count to `int`. `SizeCorrect` is what
they are for, over the code's own search and extension, and it holds of a request exactly
where `SizeFits` does.
-/

namespace Symphony

variable {boot : Boot} {h h' : Kheap} {bs cs : List Block} {b c : Block} {r size : UInt64}

/-- The call extends the heap: the search fails and `kheap_extend` returns. -/
def KmallocExtends (boot : Boot) (source : PageSource) (size : UInt64) (h h₁ : Kheap) : Prop :=
  kmallocSearch (kmallocRound size) h manyTurns h.blockListStart = .ok none ∧
    kheapExtend boot source (kmallocRound size) h = .ok h₁

/-- The size arithmetic of a call is right. -/
structure SizeCorrect (boot : Boot) (source : PageSource) (size : UInt64) (h : Kheap) : Prop where
  /-- The call halts with the panic of the page frame allocator or returns a block with room
  for the request. -/
  payload : Meets (kmalloc boot source size h)
    (fun out => size ≤ out.2.mem.blockSize (out.1 - headerSize))
    (fun e => e = .panic "Out of Memory!")
  /-- After an extension the recursive call finds a block. -/
  once : ∀ h₁, KmallocExtends boot source size h h₁ →
    ∃ found, kmallocSearch (kmallocRound (kmallocRound size)) h₁ manyTurns h₁.blockListStart =
      .ok (some found)
  /-- The recorded length is that of the pages requested. -/
  length : ∀ h₁, KmallocExtends boot source size h h₁ →
    ∃ region, h₁.regions = h.regions ++ [region] ∧
      ((h₁.kheapSize - h.kheapSize).toNat : Int) = 4096 * region.pages.toInt ∧
      ((h₁.mem.blockSize region.base + headerSize).toNat : Int) = 4096 * region.pages.toInt

/-- The rounding to 16 bytes does not wrap: the request is at most 2^64 - 16, or it is a multiple
of ten and not rounded. -/
def RoundFits (size : UInt64) : Prop := size.toNat ≤ 2 ^ 64 - 16 ∨ size % 10 = 0

/-- The condition under which the size arithmetic is right: a free block has room for the rounded
request, or the frames do not meet the narrowed page count, or the request with its header is at
most 2^43 - 4096; and where a block is returned the rounding did not wrap. -/
def SizeFits (size : UInt64) (h : Kheap) (bs : List Block) : Prop :=
  (∃ b ∈ bs, b.Suits (kmallocRound size)) ∧ RoundFits size ∨
  (¬ ∃ b ∈ bs, b.Suits (kmallocRound size)) ∧
    (h.machine.Refuses (extendPages (kmallocRound size)) ∨
      (kmallocRound size).toNat + 32 ≤ 2 ^ 43 - 4096 ∧ RoundFits size)

/-- Rounding that does not wrap does not make a request smaller. -/
theorem RoundFits.le (fits : RoundFits size) : size.toNat ≤ (kmallocRound size).toNat := by
  have small := size.toNat_lt
  unfold kmallocRound
  by_cases round : size % 10 ≠ 0
  · rw [if_pos round, toNat_alignUp (by decide)]
    change _ ≤ (size.toNat + 16 - 1) / 16 * 16 % 2 ^ 64
    have bound : size.toNat ≤ 2 ^ 64 - 16 := fits.resolve_right round
    omega
  · rw [if_neg round]

/-- Rounding that wraps leaves nothing of a request. -/
theorem kmallocRound_of_not_fits (wraps : ¬ RoundFits size) :
    kmallocRound size = 0 ∧ 2 ^ 64 - 16 < size.toNat := by
  have small := size.toNat_lt
  obtain ⟨large, round⟩ := not_or.mp wraps
  refine ⟨?_, by omega⟩
  rw [kmallocRound, if_pos round, ← UInt64.toNat_inj, toNat_alignUp (by decide)]
  change (size.toNat + 16 - 1) / 16 * 16 % 2 ^ 64 = 0
  omega

/-- The payload of a block that was taken, as its header describes it. -/
theorem Taken.blockSize (taken : Taken h h' bs cs r b) :
    h'.mem.blockSize (b.pointer - headerSize) = b.size := by
  have inList : b ∈ cs := (taken.used b taken.taken).mpr (Or.inr rfl)
  rw [b.pointer_sub]
  obtain ⟨before, after, rfl⟩ := List.append_of_mem inList
  exact taken.listed.fields.1

/-- A block that was taken has room for the request exactly where the rounding did not wrap. -/
theorem Taken.payload_iff (taken : Taken h h' bs cs (kmallocRound size) b) :
    size ≤ h'.mem.blockSize (b.pointer - headerSize) ↔ RoundFits size := by
  have room := taken.room
  have slack := taken.slack
  rw [taken.blockSize, UInt64.le_iff_toNat_le]
  constructor
  · intro large
    by_contra wraps
    obtain ⟨none, huge⟩ := kmallocRound_of_not_fits wraps
    rw [none] at slack
    change b.size.toNat ≤ 32 at slack
    omega
  · intro fits
    exact Nat.le_trans fits.le room

/-- Where a block suits, the call does not extend the heap. -/
theorem Listed.not_extends {source : PageSource} {h₁ : Kheap} (listed : Listed h bs)
    (suits : ∃ b ∈ bs, b.Suits (kmallocRound size))
    (separate : Separate bs) : ¬ KmallocExtends boot source size h h₁ := by
  rintro ⟨searched, -⟩
  obtain ⟨h', cs, d, found, -⟩ := listed.found suits fun before b after same _ => by
    have chain := List.isChain_split.mp (same ▸ separate)
    exact ⟨(List.isChain_append.mp chain.1).1, chain.2⟩
  rw [searched] at found
  cases found

/-- Nothing has room for a request that wraps when the header is added. -/
theorem Listed.not_suits_huge (listed : Listed h bs) (huge : 2 ^ 64 ≤ r.toNat + 32) :
    ∀ b ∈ bs, ¬ b.Suits r := by
  intro b inList suits
  have fits := (Block.fits_iff b).mp (listed.fits b inList)
  have room := suits.2
  omega

/-- The arithmetic is right where the page frame allocator halts. -/
theorem HeapInv.correct_of_halts (inv : HeapInv h bs)
    (unfit : ∀ b ∈ bs, ¬ b.Suits (kmallocRound size))
    (failed : pmmAlloc (extendPages (kmallocRound size)) h.machine = .error (.panic "Out of Memory!")) :
    SizeCorrect boot pmmAlloc size h := by
  have never (h₁ : Kheap) : ¬ KmallocExtends boot pmmAlloc size h h₁ := by
    rintro ⟨-, run⟩
    rw [kheapExtend_error failed] at run
    cases run
  refine ⟨?_, fun h₁ grows => absurd grows (never h₁), fun h₁ grows => absurd grows (never h₁)⟩
  rw [inv.listed.kmalloc_halts unfit failed]
  rfl

/-- The arithmetic is right where a block suits and the rounding does not wrap. -/
theorem HeapInv.correct_of_suits (inv : HeapInv h bs)
    (suits : ∃ b ∈ bs, b.Suits (kmallocRound size)) (rounds : RoundFits size) :
    SizeCorrect boot pmmAlloc size h := by
  obtain ⟨h', cs, d, run, -, taken⟩ := inv.kmalloc_direct suits
  refine ⟨?_, fun h₁ grows => ?_, fun h₁ grows => ?_⟩
  · rw [run]
    exact taken.payload_iff.mpr rounds
  · exact absurd grows (inv.listed.not_extends suits inv.separate)
  · exact absurd grows (inv.listed.not_extends suits inv.separate)

/-- The recorded lengths after an extension whose page count survives its conversion. -/
theorem Extended.length {Ready : Machine → List Region → Prop} (extended : Extended Ready h h' bs r c)
    (exact : (extendBytes r).toNat = 4096 * (extendPages r).toInt.toNat)
    (positive : 0 < (extendPages r).toInt) :
    ∃ region, h'.regions = h.regions ++ [region] ∧
      ((h'.kheapSize - h.kheapSize).toNat : Int) = 4096 * region.pages.toInt ∧
      ((h'.mem.blockSize region.base + headerSize).toNat : Int) = 4096 * region.pages.toInt := by
  obtain ⟨region, regions, extent, pages⟩ := extended.regions
  have grown : h'.kheapSize - h.kheapSize = extendBytes r := by
    rw [extended.grown]
    grind
  have place : region.base = c.addr := UInt64.toNat_inj.mp (congrArg Interval.start extent)
  have size : h'.mem.blockSize c.addr = c.size := extended.listed.fields.1
  have bytes := extended.bytes
  have fits := (Block.fits_iff c).mp (extended.listed.fits c (by simp))
  have sum : (c.size + headerSize).toNat = c.size.toNat + 32 :=
    toNat_add_of_fits (by change _ + 32 < _; omega)
  refine ⟨region, regions, ?_, ?_⟩
  · rw [grown, pages]
    omega
  · rw [place, size, sum, pages]
    omega

/-- The arithmetic is right where it fits. -/
theorem SizeFits.correct (limine : boot.Limine) (direct : boot.Direct) (inv : HeapInv h bs)
    (ready : PagesReady boot h.machine h.regions) (fits : SizeFits size h bs) :
    SizeCorrect boot pmmAlloc size h := by
  have fresh := pmmAlloc_fresh limine direct
  have unfit (none : ¬ ∃ b ∈ bs, b.Suits (kmallocRound size)) :
      ∀ b ∈ bs, ¬ b.Suits (kmallocRound size) := fun b inList suits => none ⟨b, inList, suits⟩
  rcases fits with ⟨suits, rounds⟩ | ⟨none, refuses | ⟨small, rounds⟩⟩
  · exact inv.correct_of_suits suits rounds
  · obtain ⟨held, owns, -⟩ := ready
    exact inv.correct_of_halts (unfit none) ((pmmAlloc_panics_iff owns.sized _).mpr refuses)
  · obtain ⟨positive, exact, -⟩ := extendBytes_of_le small
    cases obtained : pmmAlloc (extendPages (kmallocRound size)) h.machine with
    | error e =>
      rw [fresh.halts _ _ _ ready positive e obtained] at obtained
      exact inv.correct_of_halts (unfit none) obtained
    | ok out =>
      obtain ⟨frames, machine⟩ := out
      obtain ⟨h₁, c, h', cs, d, extension, extended, run, searched, taken⟩ :=
        inv.kmalloc_extended (unfit none) fresh ready small obtained
      have only {h₂ : Kheap} (grows : KmallocExtends boot pmmAlloc size h h₂) : h₂ = h₁ := by
        have both := grows.2
        rw [extension] at both
        exact (Except.ok.inj both).symm
      refine ⟨?_, fun h₂ grows => ?_, fun h₂ grows => ?_⟩
      · rw [run]
        exact taken.payload_iff.mpr rounds
      · rw [only grows, kmallocRound_kmallocRound]
        exact ⟨_, searched⟩
      · rw [only grows]
        exact extended.length exact positive

/-- The arithmetic is right exactly where it fits. -/
theorem SizeCorrect.fits (limine : boot.Limine) (direct : boot.Direct) (inv : HeapInv h bs)
    (ready : PagesReady boot h.machine h.regions) (correct : SizeCorrect boot pmmAlloc size h) :
    SizeFits size h bs := by
  have fresh := pmmAlloc_fresh limine direct
  by_cases suits : ∃ b ∈ bs, b.Suits (kmallocRound size)
  · obtain ⟨h', cs, d, run, -, taken⟩ := inv.kmalloc_direct suits
    have payload := correct.payload
    rw [run] at payload
    exact Or.inl ⟨suits, taken.payload_iff.mp payload⟩
  · refine Or.inr ⟨suits, ?_⟩
    have unfit : ∀ b ∈ bs, ¬ b.Suits (kmallocRound size) := fun b inList fit => suits ⟨b, inList, fit⟩
    cases obtained : pmmAlloc (extendPages (kmallocRound size)) h.machine with
    | error e =>
      -- No failure but the panic is right.
      have payload := correct.payload
      rw [inv.listed.kmalloc_halts unfit obtained] at payload
      obtain ⟨held, owns, -⟩ := ready
      rw [show e = _ from payload] at obtained
      exact Or.inl ((pmmAlloc_panics_iff owns.sized _).mp obtained)
    | ok out =>
      obtain ⟨frames, machine⟩ := out
      right
      have positive : 0 < (extendPages (kmallocRound size)).toInt := by
        by_contra none
        obtain ⟨held, owns, -⟩ := ready
        obtain ⟨e, failed⟩ := pmmAlloc_nonpositive owns.sized (Int.not_lt.mp none)
        rw [failed] at obtained
        cases obtained
      have bytes := extendBytes_toNat (kmallocRound size)
      have pages := extendPages_toInt (kmallocRound size)
      have upper := (extendPages (kmallocRound size)).toInt_lt
      have searched := inv.listed.searches_none unfit
      have sum := UInt64.toNat_add (kmallocRound size) headerSize
      change _ = ((kmallocRound size).toNat + 32) % 2 ^ 64 at sum
      have word := (kmallocRound size).toNat_lt
      by_cases wraps : 2 ^ 64 ≤ (kmallocRound size).toNat + 32
      · -- The sum with the header wraps: one page at most is requested, and nothing in it suits.
        have exact : (extendBytes (kmallocRound size)).toNat =
            4096 * (extendPages (kmallocRound size)).toInt.toNat := by
          rw [extendPages_of_lt (by omega)] at positive ⊢
          omega
        obtain ⟨h₁, c, run, extended⟩ := inv.extends fresh ready positive exact obtained
        obtain ⟨found, again⟩ := correct.once h₁ ⟨searched, run⟩
        rw [kmallocRound_kmallocRound,
          extended.listed.searches_none (extended.listed.not_suits_huge wraps)] at again
        cases again
      · by_cases small : (kmallocRound size).toNat + 32 ≤ 2 ^ 43 - 4096
        · obtain ⟨h₁, c, h', cs, d, -, -, run, -, taken⟩ :=
            inv.kmalloc_extended unfit fresh ready small obtained
          have payload := correct.payload
          rw [run] at payload
          exact ⟨small, taken.payload_iff.mp payload⟩
        · -- More pages are recorded than an `int` can request.
          obtain ⟨h₁, run, grown, regions⟩ := kheapExtend_ok boot obtained
          obtain ⟨region, same, length, -⟩ := correct.length h₁ ⟨searched, run⟩
          rw [regions] at same
          have last := List.append_inj_right' same rfl
          rw [List.cons.injEq] at last
          rw [← last.1, grown, show h.kheapSize + extendBytes (kmallocRound size) - h.kheapSize =
            extendBytes (kmallocRound size) by grind] at length
          change ((extendBytes (kmallocRound size)).toNat : Int) =
            4096 * (extendPages (kmallocRound size)).toInt at length
          omega

/-- Size arithmetic of every request on every well-formed heap: it is right exactly where a free
block has room, the frames do not meet the narrowed page count, or the request with its header is
at most 2^43 - 4096, and where the rounding of a request that is served does not wrap. -/
theorem kmalloc_sizes (limine : boot.Limine) (direct : boot.Direct) (inv : HeapInv h bs)
    (ready : PagesReady boot h.machine h.regions) (size : UInt64) :
    SizeCorrect boot pmmAlloc size h ↔ SizeFits size h bs :=
  ⟨SizeCorrect.fits limine direct inv ready, SizeFits.correct limine direct inv ready⟩

/-- The initialised heap of the machine serves a request of a hundred bytes. -/
theorem kmalloc_sizes_heapBoot : ∃ s h, kheapInit heapBoot pmmAlloc s = .ok h ∧
    SizeCorrect heapBoot pmmAlloc 100 h := by
  obtain ⟨s, h, -, ready, run⟩ := heapBoot_runs
  obtain ⟨start, inv, -, ready'⟩ := (kheapInit_meets heapBoot_fresh ready).of_ok run
  have suits : (initialBlock start).Suits (kmallocRound 100) := initialBlock_suits start (by decide)
  have rounds : RoundFits 100 := Or.inr (by decide)
  exact ⟨s, h, run, (kmalloc_sizes heapBoot_limine heapBoot_direct inv ready' 100).mpr
    (Or.inl ⟨⟨_, List.mem_singleton_self _, suits⟩, rounds⟩)⟩

/-- A request of 2^64 - 1 bytes on the initialised heap is rounded to nothing and returns a
pointer to a block without payload. -/
theorem kmalloc_wraps : ∃ s h ptr h', kheapInit heapBoot pmmAlloc s = .ok h ∧
    kmalloc heapBoot pmmAlloc 0xffffffffffffffff h = .ok (ptr, h') ∧
    h'.mem.blockSize (ptr - headerSize) = 0 := by
  obtain ⟨s, h, -, ready, run⟩ := heapBoot_runs
  obtain ⟨start, inv, -⟩ := (kheapInit_meets heapBoot_fresh ready).of_ok run
  have round : kmallocRound 0xffffffffffffffff = 0 := by decide
  have room : (kmallocRound 0xffffffffffffffff).toNat ≤ 65504 := by decide
  obtain ⟨h', cs, d, allocated, taken, origin⟩ := inv.kmalloc_initial room
  refine ⟨s, h, d.pointer, h', run, allocated, ?_⟩
  rw [taken.blockSize]
  rw [round] at origin
  have large : (0 : UInt64).toNat + 32 < (initialBlock start).size.toNat := by
    rw [initialBlock_size]
    decide
  exact (origin.split large).1

end Symphony
