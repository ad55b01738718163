import Symphony.Verif.HeapPages

/-!
# Safety of the heap over its runs

What holds in every session of a run: the block list represents the regions and the live
allocations, calls do not disturb the allocations of others, and free neighbours are
merged.
-/

namespace Symphony

variable {boot : Boot} {source : PageSource} {Ready : Machine → List Region → Prop}
variable {machine : Machine} {h : Kheap} {bs : List Block} {b : Block} {s : Session}

/-! ## The block list -/

/-- Blocks have different addresses. -/
theorem Listed.distinct (listed : Listed h bs) : (bs.map Block.addr).Nodup := by
  rw [List.Nodup, List.pairwise_map]
  apply listed.apart.imp
  intro x y apart same
  rw [Block.apart_iff, same] at apart
  omega

/-- The successor of a block is linked back to it. -/
theorem Listed.next_prev (listed : Listed h bs) (inList : b ∈ bs)
    (some : h.mem.blockNext b.addr ≠ 0) : h.mem.blockPrev (h.mem.blockNext b.addr) = b.addr := by
  obtain ⟨before, after, rfl⟩ := List.append_of_mem inList
  rw [listed.fields.2.2.1] at some ⊢
  cases after with
  | nil => exact absurd rfl some
  | cons c rest =>
    have prev := listed.second.fields.2.2.2
    rw [lastOr_append] at prev
    exact prev

/-- Live pointers are those of the blocks in use. -/
theorem Sound.live_iff (sound : Sound Ready s bs) (p : UInt64) :
    p ∈ s.live.map Allocation.pointer ↔ ∃ b ∈ bs, b.free = false ∧ b.pointer = p := by
  constructor
  · intro live
    obtain ⟨x, inLive, rfl⟩ := List.mem_map.mp live
    obtain ⟨b, inList, used, same, -⟩ := sound.allocated x inLive
    exact ⟨b, inList, used, same⟩
  · rintro ⟨b, inList, used, rfl⟩
    obtain ⟨x, inLive, same⟩ := sound.live b inList used
    exact List.mem_map.mpr ⟨x, inLive, same⟩

/-- The bytes of the blocks, counted. -/
theorem HeapInv.total (inv : HeapInv h bs) :
    Interval.total (bs.map Block.extent) = h.kheapSize.toNat := by
  rw [inv.size]
  exact Interval.total_congr inv.tiles

/-- Representation of the heap: in every session of a run the headers are a doubly linked list
of blocks that lie apart, cover exactly the regions obtained and have their total length; the
blocks in use are the live allocations, with different pointers; and every allowed call ends,
with the panic of the page frame allocator as its only failure. -/
theorem heap_represented (fresh : source.Fresh boot Ready) (ready : Ready machine [])
    (run : HeapRun boot source machine s) :
    ∃ bs, Listed s.heap bs ∧ (bs.map Block.addr).Nodup ∧
      (∀ b ∈ bs, s.heap.mem.blockNext b.addr ≠ 0 →
        s.heap.mem.blockPrev (s.heap.mem.blockNext b.addr) = b.addr) ∧
      (∀ a, (∃ b ∈ bs, b.extent.Has a) ↔ ∃ region ∈ s.heap.regions, region.extent.Has a) ∧
      Interval.total (bs.map Block.extent) = s.heap.kheapSize.toNat ∧
      (∀ p, p ∈ s.live.map Allocation.pointer ↔ ∃ b ∈ bs, b.free = false ∧ b.pointer = p) ∧
      (s.live.map Allocation.pointer).Nodup ∧
      ∀ c : HeapCall, c.Allowed s →
        Meets (c.perform boot source s) (fun _ => True) fun e => e = .panic "Out of Memory!" := by
  obtain ⟨bs, sound⟩ := run.sound fresh ready
  have listed := sound.inv.listed
  refine ⟨bs, listed, listed.distinct, fun b inList => listed.next_prev inList, fun a => ?_,
    sound.inv.total, sound.live_iff, sound.distinct, fun c allowed => ?_⟩
  · rw [← covers_iff_of_tiles sound.inv.tiles]
    simp [Interval.Covers]
  · exact (sound.perform fresh allowed).mono (fun _ _ => trivial) fun _ => id

/-- A session of the machine with one live allocation is represented by a block list with a
block in use. -/
theorem heap_represented_heapBoot : ∃ machine, ∃ s : Session, HeapRun heapBoot pmmAlloc machine s ∧
    ∃ bs, Listed s.heap bs ∧ ∃ b ∈ bs, b.free = false := by
  obtain ⟨machine, ready, s, run, ptr, live⟩ := heapBoot_session
  obtain ⟨bs, listed, -, -, -, -, used, -⟩ := heap_represented heapBoot_fresh ready run
  obtain ⟨b, inList, isUsed, -⟩ := (used ptr).mp (by rw [live]; exact List.mem_singleton_self ptr)
  exact ⟨machine, s, run, bs, listed, b, inList, isUsed⟩

/-! ## The allocations of others -/

/-- `kzalloc` returns zero bytes. -/
theorem Sound.kzalloc_zero (sound : Sound Ready s bs) (fresh : source.Fresh boot Ready)
    {size : UInt64} {s' : Session} (allowed : (HeapCall.kzalloc size).Allowed s)
    (returned : (HeapCall.kzalloc size).perform boot source s = .ok s') :
    ∃ x, s'.live = x :: s.live ∧ x.size = size ∧ ∀ a, x.Has a → s'.heap.mem.byte a = 0 := by
  have meets := sound.inv.kzalloc_meets fresh sound.ready allowed
  obtain ⟨⟨ptr, h⟩, allocated, made⟩ := bind_eq_ok.mp returned
  obtain ⟨cs, b, -, -, zero⟩ := meets.of_ok allocated
  cases made
  exact ⟨⟨ptr, size⟩, rfl, rfl, zero⟩

/-- An owner's write keeps all headers. -/
theorem Sound.write_headers (sound : Sound Ready s bs) {a : UInt64} (v : UInt8) {x : Allocation}
    (inLive : x ∈ s.live) (has : x.Has a) (inList : b ∈ bs) :
    (s.heap.mem.store8 a v).header b.addr = s.heap.mem.header b.addr := by
  obtain ⟨c, inC, -, -, payload⟩ := sound.block inLive
  apply (s.heap.mem.store8_writes a v).header_eq
  rintro y own rfl
  exact sound.inv.listed.not_headerByte inC (payload y has) ⟨b, inList, own⟩

/-- Non-interference: in every session of a run each live allocation holds what its owner last
wrote; a call of the allocator writes to no payload of an allocation that is live before and
after it; an owner's write keeps the block list with all its headers; and `kzalloc` returns
zero bytes. -/
theorem heap_undisturbed (fresh : source.Fresh boot Ready) (ready : Ready machine [])
    (run : HeapRun boot source machine s) :
    (∀ a v, s.contents a = some v → s.heap.mem.byte a = v ∧ ∃ x ∈ s.live, x.Has a) ∧
    (∀ c : HeapCall, c.Allowed s → c.OfAllocator → ∀ s', c.perform boot source s = .ok s' →
      s.heap.mem.Writes (fun a => ∀ x ∈ s.live, x ∈ s'.live → ¬ x.InBlock s.heap a) s'.heap.mem) ∧
    (∀ a v, (HeapCall.write a v).Allowed s → ∀ s', (HeapCall.write a v).perform boot source s = .ok s' →
      ∃ bs, Listed s.heap bs ∧ Listed s'.heap bs ∧
        ∀ b ∈ bs, s'.heap.mem.header b.addr = s.heap.mem.header b.addr) ∧
    ∀ size, (HeapCall.kzalloc size).Allowed s → ∀ s',
      (HeapCall.kzalloc size).perform boot source s = .ok s' →
      ∃ x, s'.live = x :: s.live ∧ x.size = size ∧ ∀ a, x.Has a → s'.heap.mem.byte a = 0 := by
  obtain ⟨bs, sound⟩ := run.sound fresh ready
  refine ⟨sound.contents, fun c allowed own s' returned => ?_, fun a v allowed s' returned => ?_,
    fun size allowed s' returned => sound.kzalloc_zero fresh allowed returned⟩
  · exact ((sound.perform fresh allowed).of_ok returned).2 own
  · obtain ⟨x, inLive, has⟩ := allowed
    have sound' := sound.write fresh inLive has v
    cases returned
    exact ⟨bs, sound.inv.listed, sound'.inv.listed, fun b inList =>
      sound.write_headers v inLive has inList⟩

/-- The owner of the live allocation of the machine reads back a byte after a write. -/
theorem heap_undisturbed_heapBoot : ∃ machine, ∃ s : Session, HeapRun heapBoot pmmAlloc machine s ∧
    ∃ a, s.contents a = some 7 ∧ s.heap.mem.byte a = 7 := by
  obtain ⟨machine, ready, s, run, ptr, live⟩ := heapBoot_session
  have has : (⟨ptr, 100⟩ : Allocation).Has ptr := by
    change (ptr - ptr).toNat < 100
    rw [show ptr - ptr = 0 by grind]
    decide
  have inLive : (⟨ptr, 100⟩ : Allocation) ∈ s.live := by
    rw [live]
    exact List.mem_singleton_self _
  have next := run.call s _ (.write ptr 7) ⟨_, inLive, has⟩ rfl
  have wrote : (if ptr = ptr then some (7 : UInt8) else s.contents ptr) = some 7 := if_pos rfl
  exact ⟨machine, _, next, ptr, wrote, ((heap_undisturbed heapBoot_fresh ready next).1 ptr 7 wrote).1⟩

/-! ## Free neighbours -/

/-- A list of free blocks of which none touches its successor has the merged extents. -/
theorem coalesce_of_free (separate : Separate bs) (free : ∀ b ∈ bs, b.free = true) :
    Interval.coalesce (bs.map Block.extent) = bs.map Block.extent := by
  apply Interval.coalesce_eq_self
  rw [List.isChain_map]
  induction bs with
  | nil => exact List.isChain_nil
  | cons b rest ih =>
    unfold Separate at separate
    rw [List.isChain_cons] at separate ⊢
    refine ⟨fun c first touch => ?_, ih separate.2 fun c inRest => free c (List.mem_cons_of_mem b inRest)⟩
    have inRest : c ∈ rest := List.mem_of_mem_head? first
    exact separate.1 c first ⟨free b List.mem_cons_self, free c (List.mem_cons_of_mem b inRest), touch⟩

/-- Full coalescing: in every session of a run no free block touches a free successor. When no
allocation is live, the list holds one free block for each chain of regions that touch in the
order in which they were obtained, and the initial block if the heap was never extended. -/
theorem heap_coalesced (fresh : source.Fresh boot Ready) (ready : Ready machine [])
    (run : HeapRun boot source machine s) :
    ∃ bs, Listed s.heap bs ∧ (bs.IsChain fun b c => ¬ b.Mergeable c) ∧
      (s.live = [] → (∀ b ∈ bs, b.free = true) ∧
        bs.map Block.extent = Interval.coalesce (s.heap.regions.map Region.extent)) ∧
      (s.live = [] → s.heap.regions.length = 1 →
        bs = [⟨s.heap.blockListStart, 16 * 4096 - 32, true⟩]) := by
  obtain ⟨bs, sound⟩ := run.sound fresh ready
  have free (none : s.live = []) : ∀ b ∈ bs, b.free = true := by
    intro b inList
    by_contra notFree
    obtain ⟨x, inLive, -⟩ := sound.live b inList (Bool.eq_false_iff.mpr notFree)
    rw [none] at inLive
    cases inLive
  have extents (none : s.live = []) :
      bs.map Block.extent = Interval.coalesce (s.heap.regions.map Region.extent) := by
    rw [← sound.inv.tiles, coalesce_of_free sound.inv.separate (free none)]
  refine ⟨bs, sound.inv.listed, sound.inv.separate, fun none => ⟨free none, extents none⟩,
    fun none once => ?_⟩
  obtain ⟨start, rest, first⟩ := sound.first
  have noRest : rest = [] := by
    rw [first, List.length_cons] at once
    exact List.length_eq_zero_iff.mp (by omega)
  have single := extents none
  rw [first, noRest, List.map_singleton, initialRegion_extent] at single
  have one : bs.map Block.extent = [⟨start.toNat, 65536⟩] := single
  obtain ⟨b, rfl, extent⟩ := List.map_eq_singleton_iff.mp one
  have isFree := free none b (List.mem_singleton_self b)
  have place : b.addr = s.heap.blockListStart := sound.inv.listed.start.symm
  have size : b.size = 16 * 4096 - 32 := by
    have bytes : 32 + b.size.toNat = 65536 := congrArg Interval.len extent
    have value : (16 * 4096 - 32 : UInt64).toNat = 65504 := by decide
    rw [← UInt64.toNat_inj, value]
    omega
  rw [← place, ← size, ← isFree]

/-- A machine that released its only allocation has its initial block again. -/
theorem heap_coalesced_heapBoot : ∃ machine, ∃ s : Session, HeapRun heapBoot pmmAlloc machine s ∧
    s.live = [] ∧ ∃ bs, Listed s.heap bs ∧ ∀ b ∈ bs, b.free = true := by
  obtain ⟨machine, ready, s, run, ptr, live⟩ := heapBoot_session
  have released : ptr ∈ s.live.map Allocation.pointer := by
    rw [live]
    exact List.mem_singleton_self ptr
  have next := run.call s _ (.kfree ptr) (Or.inr (Or.inl released)) rfl
  have none : s.live.filter (fun x => x.pointer ≠ ptr) = [] := by
    rw [live]
    simp
  obtain ⟨bs, listed, -, free, -⟩ := heap_coalesced heapBoot_fresh ready next
  exact ⟨machine, _, next, none, bs, listed, (free none).1⟩

end Symphony
