import Symphony.Verif.HeapOrder

/-!
# The heap keeps no trace of its past

The blocks of a heap tile its regions, and free neighbours are merged. Such a list is known by
the regions and the blocks in use: whatever was allocated and released on the way, and in
whatever order, leaves nothing behind. A heap without live allocations is as after its start.
-/

namespace Symphony

variable {boot : Boot} {source source' : PageSource} {Ready Ready' : Machine → List Region → Prop}
variable {machine machine' : Machine} {h : Kheap} {bs : List Block} {s s' : Session}

/-- The blocks of a heap are a tiling. -/
theorem HeapInv.tiling (inv : HeapInv h bs) :
    Interval.Tiling Block.extent (fun b => !b.free) bs where
  positive := fun b _ => Nat.add_pos_left (by decide) b.size.toNat
  apart := inv.listed.apart
  separate := by
    apply inv.separate.imp
    intro b c separate both
    apply separate
    simpa [Block.Mergeable] using both

/-- A block is known by its extent and its flag. -/
theorem Block.ext_extent {b c : Block} (extent : b.extent = c.extent)
    (used : (!b.free) = !c.free) : b = c := by
  have start := congrArg Interval.start extent
  have length := congrArg Interval.len extent
  have addr : b.addr = c.addr := UInt64.toNat_inj.mp start
  have size : b.size = c.size := by
    apply UInt64.toNat_inj.mp
    exact Nat.add_left_cancel length
  have free : b.free = c.free := Bool.not_inj used
  cases b
  cases c
  rw [Block.mk.injEq]
  exact ⟨addr, size, free⟩

/-- Blocks in use are found under their pointers, with the sizes in their headers. -/
theorem Sound.mem_used_iff (sound : Sound Ready s bs) {b : Block} (used : b.free = false) :
    b ∈ bs ↔ b.pointer ∈ s.live.map Allocation.pointer ∧
      s.heap.mem.blockSize (b.pointer - headerSize) = b.size := by
  have size (c : Block) (inList : c ∈ bs) : s.heap.mem.blockSize (c.pointer - headerSize) = c.size := by
    rw [c.pointer_sub]
    obtain ⟨before, after, rfl⟩ := List.append_of_mem inList
    exact congrArg Header.size sound.inv.listed.header
  constructor
  · intro inList
    exact ⟨(sound.live_iff b.pointer).mpr ⟨b, inList, used, rfl⟩, size b inList⟩
  · intro found
    obtain ⟨c, inList, usedC, same⟩ := (sound.live_iff b.pointer).mp found.1
    have addr : c.addr = b.addr := by rw [← c.pointer_sub, same, b.pointer_sub]
    have equal : c.size = b.size := by rw [← size c inList, same, found.2]
    have block : b = c := by
      cases b
      cases c
      dsimp only at used usedC addr equal
      rw [Block.mk.injEq]
      exact ⟨addr.symm, equal.symm, used.trans usedC.symm⟩
    exact block ▸ inList

/-- The heap is canonical: two runs of the heap, however they went and whoever served their pages,
end with the same block list, links and all, if they end with the same regions and with the same
live pointers over blocks of the same sizes. -/
theorem heap_canonical (fresh : source.Fresh boot Ready) (ready : Ready machine [])
    (run : HeapRun boot source machine s) (fresh' : source'.Fresh boot Ready')
    (ready' : Ready' machine' []) (run' : HeapRun boot source' machine' s')
    (regions : s.heap.regions = s'.heap.regions)
    (live : ∀ p, p ∈ s.live.map Allocation.pointer ↔ p ∈ s'.live.map Allocation.pointer)
    (sizes : ∀ p ∈ s.live.map Allocation.pointer,
      s.heap.mem.blockSize (p - headerSize) = s'.heap.mem.blockSize (p - headerSize)) :
    ∃ bs, SameList s.heap s'.heap bs := by
  obtain ⟨bs, sound⟩ := run.sound fresh ready
  obtain ⟨cs, sound'⟩ := run'.sound fresh' ready'
  have same : bs = cs := by
    apply sound.inv.tiling.unique (fun b c => Block.ext_extent) sound'.inv.tiling
    · rw [sound.inv.tiles, sound'.inv.tiles, regions]
    · intro b inUse
      have used : b.free = false := by simpa using inUse
      rw [sound.mem_used_iff used, sound'.mem_used_iff used, ← live]
      apply and_congr_right
      intro isLive
      rw [sizes b.pointer isLive]
  refine ⟨bs, sound.inv.listed.same ?_⟩
  rw [same]
  exact sound'.inv.listed

/-- The machine can allocate and release again, which leads to a second session without live
allocations. -/
theorem heapBoot_released : ∃ machine, ∃ s s' : Session, PagesReady heapBoot machine [] ∧
    HeapRun heapBoot pmmAlloc machine s ∧ HeapRun heapBoot pmmAlloc machine s' ∧
      s.heap.regions = s'.heap.regions ∧ s.live = [] ∧ s'.live = [] := by
  have small : (24 : UInt64).toNat ≤ 2 ^ 42 := by decide
  obtain ⟨machine, ready, h, h', start, cs, d, inv, taken, -, first, second⟩ :=
    heapBoot_kmalloc small (by decide)
  have third := second.call _ _ (.kfree d.pointer) (Or.inr (Or.inl List.mem_cons_self)) rfl
  have inUse := (taken.used d taken.taken).mpr (Or.inr rfl)
  obtain ⟨ds, release⟩ := (taken.inv inv.tiles inv.size).kfree inUse taken.taken
  refine ⟨machine, _, _, ready, first, third, ?_, rfl, ?_⟩
  · exact (release.keeps.regions.trans taken.keeps.regions).symm
  · simp

/-- An allocation and its release lead back to the first list. -/
theorem heap_canonical_heapBoot : ∃ machine, ∃ s s' : Session,
    HeapRun heapBoot pmmAlloc machine s ∧ HeapRun heapBoot pmmAlloc machine s' ∧
      ∃ bs, SameList s.heap s'.heap bs := by
  obtain ⟨machine, s, s', ready, run, run', regions, empty, empty'⟩ := heapBoot_released
  have none (p : UInt64) : p ∉ s.live.map Allocation.pointer := by
    rw [empty]
    exact List.not_mem_nil
  have none' (p : UInt64) : p ∉ s'.live.map Allocation.pointer := by
    rw [empty']
    exact List.not_mem_nil
  exact ⟨machine, s, s', run, run', heap_canonical heapBoot_fresh ready run heapBoot_fresh ready run'
    regions (fun p => iff_of_false (none p) (none' p)) fun p live => absurd live (none p)⟩

/-- Nothing leaks and nothing stays in pieces: in every session of a run in which all allocations
were released, the blocks are free and are the regions of the heap, each run of touching regions
one block, and every request that fits into the first region is served without new pages. -/
theorem heap_emptied (fresh : source.Fresh boot Ready) (ready : Ready machine [])
    (run : HeapRun boot source machine s) (empty : s.live = []) :
    ∃ bs, Listed s.heap bs ∧ (∀ b ∈ bs, b.free = true) ∧
      bs.map Block.extent = Interval.coalesce (s.heap.regions.map Region.extent) ∧
      ∀ size, (kmallocRound size).toNat ≤ 65504 →
        ∃ ptr h', kmalloc boot source size s.heap = .ok (ptr, h') ∧
          h'.regions = s.heap.regions := by
  obtain ⟨bs, sound⟩ := run.sound fresh ready
  have free (b : Block) (inList : b ∈ bs) : b.free = true := by
    by_contra used
    obtain ⟨x, inLive, -⟩ := sound.live b inList (by simpa using used)
    rw [empty] at inLive
    cases inLive
  have gaps : (bs.map Block.extent).IsChain fun x y => x.stop ≠ y.start := by
    rw [List.isChain_map]
    apply sound.inv.separate.imp_of_mem_imp
    intro b c inB inC separate touch
    exact separate ⟨free b inB, free c inC, touch⟩
  have blocks := Interval.coalesce_eq_self gaps
  rw [sound.inv.tiles] at blocks
  refine ⟨bs, sound.inv.listed, free, blocks.symm, fun size room => ?_⟩
  obtain ⟨start, rest, regions⟩ := sound.first
  obtain ⟨z, more, merged, same, stop, -⟩ :=
    Interval.coalesce_cons (⟨start, kheapInitPages⟩ : Region).extent (rest.map Region.extent)
  rw [regions, List.map_cons, merged] at blocks
  obtain ⟨b, later, rfl, extent, -⟩ := List.map_eq_cons_iff.mp blocks.symm
  have suits : b.Suits (kmallocRound size) := by
    refine ⟨free b List.mem_cons_self, ?_⟩
    rw [initialRegion_extent] at stop same
    rw [← extent] at stop same
    unfold Interval.stop at stop
    change b.addr.toNat = start.toNat at same
    change start.toNat + 65536 ≤ b.addr.toNat + (32 + b.size.toNat) at stop
    omega
  obtain ⟨h', cs, d, allocated, -, taken⟩ := sound.inv.kmalloc_direct ⟨b, List.mem_cons_self, suits⟩
  exact ⟨d.pointer, h', allocated, taken.keeps.regions⟩

/-- The machine is as after its start when its allocation was released. -/
theorem heap_emptied_heapBoot : ∃ machine, ∃ s : Session, HeapRun heapBoot pmmAlloc machine s ∧
    ∃ bs, Listed s.heap bs ∧
      bs.map Block.extent = Interval.coalesce (s.heap.regions.map Region.extent) := by
  obtain ⟨machine, -, s, ready, -, run, -, -, empty⟩ := heapBoot_released
  obtain ⟨bs, listed, -, blocks, -⟩ := heap_emptied heapBoot_fresh ready run empty
  exact ⟨machine, s, run, bs, listed, blocks⟩

end Symphony
