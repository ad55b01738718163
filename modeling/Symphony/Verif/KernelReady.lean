import Symphony.Verif.KernelState

/-!
# The heap beside the other owners

While page tables and other users hold frames of their own, the page frame allocator still is
a source of fresh pages for the heap, and neither its pages nor the writes of the heap touch
what others hold. So every result about the heap holds in the kernel, and steps of the others
keep a sound session of the heap.
-/

namespace Symphony

variable {boot : Boot} {s s' : Machine} {spaces spaces' : Spaces} {drivers drivers' : Nat → Prop}
  {stored stored' : UInt64 → UInt8 → Prop} {regions : List Region}

/-- The heap holds the frames of its regions, beside page tables and other users. -/
structure KernelReady (boot : Boot) (spaces : Spaces) (drivers : Nat → Prop)
    (stored : UInt64 → UInt8 → Prop) (s : Machine) (regions : List Region) : Prop where
  /-- The page tables represent the address spaces. -/
  mapping : Mapping boot s (fun p => drivers p ∨ HeapFrame boot regions p) spaces
  /-- No other user holds a frame of the heap. -/
  apart : ∀ p, drivers p → ¬ HeapFrame boot regions p
  /-- Regions are proper ranges of addresses. -/
  placed : ∀ region ∈ regions, 0 < region.extent.len ∧ region.extent.stop < 2 ^ 64
  /-- Other users find what they wrote. -/
  stored : ∀ a v, stored a v → drivers (frameOf boot a) ∧ s.mem.byte a = v

/-- Addresses of regions lie in frames of the heap. -/
theorem InRegions.frame {a : UInt64} (inside : InRegions regions a) :
    HeapFrame boot regions (frameOf boot a) := ⟨a, inside, rfl⟩

/-- The frames of a new region are those of the request. -/
theorem heapFrame_append {frames : UInt64} {pages : Int32} (aligned : 4096 ∣ frames.toNat)
    (fits : boot.offset.toNat + frames.toNat + 4096 * pages.toInt.toNat < 2 ^ 64) (p : Nat) :
    HeapFrame boot (regions ++ [⟨frames + boot.offset, pages⟩]) p ↔
      HeapFrame boot regions p ∨ PageRange frames pages p := by
  have base : (frames + boot.offset).toNat = frames.toNat + boot.offset.toNat :=
    toNat_add_of_fits (by omega)
  constructor
  · rintro ⟨a, ⟨region, inList, has⟩, rfl⟩
    rw [List.mem_append, List.mem_singleton] at inList
    rcases inList with old | rfl
    · exact Or.inl ⟨a, ⟨region, old, has⟩, rfl⟩
    · exact Or.inr (region_frames aligned fits has)
  · rintro (⟨a, ⟨region, inList, has⟩, rfl⟩ | ⟨lower, upper⟩)
    · exact ⟨a, ⟨region, List.mem_append_left _ inList, has⟩, rfl⟩
    · -- The first byte of the frame is one of the region.
      have word : (UInt64.ofNat (4096 * p)).toNat = 4096 * p := toNat_ofNat_of_fits (by omega)
      have place : (tablePointer boot p).toNat = 4096 * p + boot.offset.toNat := by
        rw [tablePointer, toNat_add_of_fits (by omega), word]
      refine ⟨tablePointer boot p, ⟨_, List.mem_append_right _ (List.mem_singleton_self _), ?_⟩,
        frameOf_tablePointer boot (by omega)⟩
      change (frames + boot.offset).toNat ≤ _ ∧
        _ < (frames + boot.offset).toNat + 4096 * pages.toInt.toNat
      omega

/-- What is allocated lies in the direct map without wrapping around. -/
theorem Machine.Owns.alloc_fits {held : Nat → Prop} (limine : boot.Limine) (direct : boot.Direct)
    (owns : s.Owns boot held) {frames : UInt64} {pages : Int32} (positive : 0 < pages.toInt)
    (returned : pmmAlloc pages s = .ok (frames, s')) :
    boot.offset.toNat + frames.toNat + 4096 * pages.toInt.toNat < 2 ^ 64 := by
  obtain ⟨aligned, fresh, -⟩ := (owns.alloc limine).of_ok returned
  dsimp only at aligned fresh
  have last := fresh (frames.toNat / 4096 + pages.toInt.toNat - 1) ⟨by omega, by omega⟩
  have fits := direct _ last.1.1
  omega

namespace KernelReady

/-- The heap is ready whoever holds the other frames. -/
theorem pages (ready : KernelReady boot spaces drivers stored s regions) :
    PagesReady boot s regions := by
  refine ⟨_, ready.mapping.owns, fun region inList => ?_⟩
  obtain ⟨some, stop⟩ := ready.placed region inList
  exact ⟨some, stop, fun a has => Or.inl (Or.inr (InRegions.frame ⟨region, inList, has⟩))⟩

/-- Steps that represent other address spaces and spare what is known keep the heap ready. -/
theorem step {kept : Nat → Prop} (ready : KernelReady boot spaces drivers stored s regions)
    (mapping : Mapping boot s' (fun p => drivers' p ∨ HeapFrame boot regions p) spaces')
    (apart : ∀ p, drivers' p → ¬ HeapFrame boot regions p) (spares : Machine.Spares boot kept s s')
    (known : ∀ a v, stored' a v →
      stored a v ∧ drivers' (frameOf boot a) ∧ kept (frameOf boot a)) :
    KernelReady boot spaces' drivers' stored' s' regions where
  mapping := mapping
  apart := apart
  placed := ready.placed
  stored := by
    intro a v knows
    obtain ⟨before, has, isKept⟩ := known a v knows
    refine ⟨has, ?_⟩
    rw [spares.byte_eq fun outside => outside isKept]
    exact (ready.stored a v before).2

/-- Writes of the heap leave the other owners alone. -/
theorem write (limine : boot.Limine) (ready : KernelReady boot spaces drivers stored s regions)
    {m : Memory} (writes : s.mem.Writes (InRegions regions) m) :
    KernelReady boot spaces drivers stored { s with mem := m } regions where
  mapping := by
    apply ready.mapping.write limine
    intro a area
    apply writes.byte_eq
    intro inside
    have mine : drivers (frameOf boot a) ∨ HeapFrame boot regions (frameOf boot a) :=
      Or.inr inside.frame
    cases area with
    | inl inBitmap => exact ready.mapping.not_other_of_inBitmap inBitmap mine
    | inr table => exact ready.mapping.apart _ table mine
  apart := ready.apart
  placed := ready.placed
  stored := by
    intro a v knows
    obtain ⟨has, holds⟩ := ready.stored a v knows
    refine ⟨has, ?_⟩
    dsimp only
    rw [writes.byte_eq fun inside => ready.apart _ has inside.frame, holds]

/-- An allocation of the heap leaves the other owners alone. -/
theorem alloc (limine : boot.Limine) (direct : boot.Direct)
    (ready : KernelReady boot spaces drivers stored s regions) {frames : UInt64} {pages : Int32}
    (positive : 0 < pages.toInt) (returned : pmmAlloc pages s = .ok (frames, s')) :
    KernelReady boot spaces drivers stored s' (regions ++ [⟨frames + boot.offset, pages⟩]) := by
  have owns := ready.mapping.owns
  obtain ⟨aligned, fresh, -, -⟩ := (owns.alloc limine).of_ok returned
  dsimp only at aligned fresh
  have fits := owns.alloc_fits limine direct positive returned
  have frame (p : Nat) : HeapFrame boot (regions ++ [⟨frames + boot.offset, pages⟩]) p ↔
      HeapFrame boot regions p ∨ PageRange frames pages p := heapFrame_append aligned fits p
  refine ⟨?_, ?_, ?_, ?_⟩
  · have mapping := ready.mapping.alloc limine returned
    have same : (fun p => (drivers p ∨ HeapFrame boot regions p) ∨ PageRange frames pages p) =
        fun p => drivers p ∨ HeapFrame boot (regions ++ [⟨frames + boot.offset, pages⟩]) p := by
      funext p
      rw [frame, or_assoc]
    rwa [same] at mapping
  · intro p has inHeap
    rcases (frame p).mp inHeap with old | new
    · exact ready.apart p has old
    · exact (fresh p new).2 (Or.inl (Or.inl has))
  · have facts := (pmmAlloc_fresh limine direct).alloc s regions pages ready.pages positive frames s'
      returned
    intro region inList
    rw [List.mem_append, List.mem_singleton] at inList
    rcases inList with old | rfl
    · exact ready.placed region old
    · refine ⟨?_, facts.2.1⟩
      change 0 < 4096 * pages.toInt.toNat
      omega
  · intro a v knows
    obtain ⟨has, holds⟩ := ready.stored a v knows
    refine ⟨has, ?_⟩
    have spares := owns.alloc_spares limine returned
    rw [spares.byte_eq fun outside => outside (Or.inl (Or.inl has)), holds]

end KernelReady

/-- Beside other owners the page frame allocator is a source of fresh pages. -/
theorem kernelReady_fresh (limine : boot.Limine) (direct : boot.Direct) :
    PageSource.Fresh boot pmmAlloc (KernelReady boot spaces drivers stored) where
  alloc := by
    intro s regions pages ready positive frames s' returned
    have facts := (pmmAlloc_fresh limine direct).alloc s regions pages ready.pages positive frames s'
      returned
    obtain ⟨base, stop, apart, writes, -⟩ := facts
    exact ⟨base, stop, apart, writes, ready.alloc limine direct positive returned⟩
  halts := by
    intro s regions pages ready positive
    exact (pmmAlloc_fresh limine direct).halts s regions pages ready.pages positive
  write := by
    intro s regions m ready writes
    exact ready.write limine writes

/-! ## Steps of others -/

variable {Ready Ready' : Machine → List Region → Prop} {t : Session} {bs : List Block}

/-- The heap is not changed by writes outside its regions. -/
theorem HeapInv.foreign {h : Kheap} (inv : HeapInv h bs)
    (writes : h.mem.Writes (fun a => ¬ InRegions h.regions a) s'.mem) :
    HeapInv { h with machine := s' } bs := by
  have listed : Listed (h.withMem s'.mem) bs := by
    apply inv.listed.write writes
    intro b inList a own outside
    have byte : AllocatorByte bs a := AllocatorByte.header inList own
    exact outside (inv.listed.inRegions_of_allocatorByte inv.tiles byte)
  exact ⟨⟨listed.nonempty, listed.start, listed.last, listed.linked, listed.apart, listed.fits⟩,
    inv.tiles, inv.size, inv.separate⟩

/-- Steps of others keep a sound session. -/
theorem Sound.foreign (sound : Sound Ready t bs)
    (writes : t.heap.mem.Writes (fun a => ¬ InRegions t.heap.regions a) s'.mem)
    (ready : Ready' s' t.heap.regions) :
    Sound Ready' { t with heap := { t.heap with machine := s' } } bs where
  inv := sound.inv.foreign writes
  ready := ready
  first := sound.first
  allocated := sound.allocated
  live := sound.live
  distinct := sound.distinct
  freed := by
    intro p inFreed
    apply (sound.freed p inFreed).write writes sound.inv.listed.fits
    intro b inList _ a own outside
    exact outside (sound.inv.inRegions_of_payload inList own)
  contents := by
    intro a v wrote
    obtain ⟨holds, x, inLive, has⟩ := sound.contents a v wrote
    refine ⟨?_, x, inLive, has⟩
    obtain ⟨b, inList, -, -, payload⟩ := sound.block inLive
    have inside := sound.inv.inRegions_of_payload inList (payload a has)
    change s'.mem.byte a = v
    rw [writes.byte_eq fun outside => outside inside, holds]

end Symphony
