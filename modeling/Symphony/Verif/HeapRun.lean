import Symphony.Spec.HeapRun
import Symphony.Verif.HeapAlloc

/-!
# Invariant of the runs

Every session of a run is sound: the heap is well formed, its blocks in use are the live
allocations, released pointers are recognised until the next allocation, and live
allocations hold what their owners wrote. The calls keep a session sound, and allowed
calls end, with the panic of the page frame allocator as their only failure.
-/

namespace Symphony

variable {boot : Boot} {source : PageSource} {Ready : Machine → List Region → Prop}
variable {machine : Machine} {h : Kheap} {bs cs : List Block} {b : Block} {s s' : Session}

/-! ## `kheap_init` -/

/-- The block of a fresh heap. -/
def initialBlock (start : UInt64) : Block := ⟨start, 16 * 4096 - 32, true⟩

/-- The usable bytes of the block of a fresh heap. -/
theorem initialBlock_size (start : UInt64) : (initialBlock start).size.toNat = 65504 := by
  change (16 * 4096 - 32 : UInt64).toNat = 65504
  decide

/-- The block of a fresh heap suits every request that is no larger. -/
theorem initialBlock_suits {r : UInt64} (start : UInt64) (room : r.toNat ≤ 65504) :
    (initialBlock start).Suits r := by
  refine ⟨rfl, ?_⟩
  rwa [initialBlock_size]

/-- A request that is no larger than the block of a fresh heap is served from it. -/
theorem HeapInv.kmalloc_initial {size start : UInt64} (inv : HeapInv h [initialBlock start])
    (room : (kmallocRound size).toNat ≤ 65504) :
    ∃ h' cs d, kmalloc boot source size h = .ok (d.pointer, h') ∧
      Taken h h' [initialBlock start] cs (kmallocRound size) d ∧
      TakenFrom (kmallocRound size) [] (initialBlock start) [] cs d := by
  have suits := initialBlock_suits start room
  obtain ⟨h', cs, d, allocated, -, taken⟩ :=
    inv.kmalloc_direct ⟨_, List.mem_singleton_self _, suits⟩
  refine ⟨h', cs, d, allocated, taken, ?_⟩
  obtain ⟨before, b, after, same, origin⟩ := taken.origin
  cases before with
  | nil =>
    obtain ⟨rfl, rfl⟩ := List.cons.inj same
    exact origin
  | cons x before =>
    have rest := (List.cons.inj same).2
    simp at rest

/-- A session records the allocation that `kmalloc` returned. -/
theorem perform_kmalloc {size ptr : UInt64} {h' : Kheap}
    (allocated : kmalloc boot source size s.heap = .ok (ptr, h')) :
    (HeapCall.kmalloc size).perform boot source s =
      .ok ⟨h', ⟨ptr, size⟩ :: s.live, [], s.contents⟩ := by
  rw [HeapCall.perform, allocated]
  rfl

/-- The bytes of the block of a fresh heap. -/
theorem initialBlock_extent (start : UInt64) : (initialBlock start).extent = ⟨start.toNat, 65536⟩ := by
  rw [Block.extent, initialBlock_size]
  rfl

/-- The bytes of the first region. -/
theorem initialRegion_extent (start : UInt64) :
    (⟨start, kheapInitPages⟩ : Region).extent = ⟨start.toNat, 65536⟩ := by
  have pages : kheapInitPages.toInt.toNat = 16 := by decide
  rw [Region.extent, pages]

/-- The size of the first region. -/
theorem initial_bytes : wordOfInt kheapInitPages * pageSize = 65536 := by decide

/-- `kheap_init` makes a heap of one free block. -/
theorem kheapInit_meets (fresh : source.Fresh boot Ready) (ready : Ready machine []) :
    Meets (kheapInit boot source machine)
      (fun h => ∃ start, HeapInv h [initialBlock start] ∧ h.regions = [⟨start, kheapInitPages⟩] ∧
        Ready h.machine h.regions)
      (fun e => e = .panic "Out of Memory!") := by
  unfold kheapInit
  cases obtained : source kheapInitPages machine with
  | error e => exact fresh.halts _ _ _ ready (by decide) e obtained
  | ok out =>
    obtain ⟨frames, machine'⟩ := out
    rw [ok_bind]
    obtain ⟨start, isStart⟩ : ∃ start, start = frames + boot.offset := ⟨_, rfl⟩
    have facts := fresh.alloc machine [] kheapInitPages ready (by decide) frames machine' obtained
    rw [← isStart] at facts
    obtain ⟨positive, stop, -, -, ready'⟩ := facts
    rw [initialRegion_extent] at stop
    have fits : (initialBlock start).Fits := by
      refine ⟨positive, ?_⟩
      rw [initialBlock_extent]
      exact stop
    simp only [bootProtoHhdmOffset, ← isStart, initial_bytes]
    obtain ⟨m₁, e₁⟩ : ∃ m₁, m₁ = memset machine'.mem start 0 headerSize := ⟨_, rfl⟩
    obtain ⟨m₂, e₂⟩ : ∃ m₂, m₂ = m₁.setBlockSize start
        (65536 - headerSize) := ⟨_, rfl⟩
    obtain ⟨m₃, e₃⟩ : ∃ m₃, m₃ = m₂.setBlockPrev start 0 := ⟨_, rfl⟩
    obtain ⟨m₄, e₄⟩ : ∃ m₄, m₄ = m₃.setBlockNext start 0 := ⟨_, rfl⟩
    obtain ⟨m₅, e₅⟩ : ∃ m₅, m₅ = m₄.setBlockFree start true := ⟨_, rfl⟩
    simp only [← e₁, ← e₂, ← e₃, ← e₄, ← e₅]
    have left : (65536 - headerSize : UInt64) = 16 * 4096 - 32 := by decide
    have header : m₅.header start = ⟨16 * 4096 - 32, true, 0, 0⟩ := by
      rw [e₅, Memory.header_setBlockFree, e₄, Memory.header_setBlockNext, e₃,
        Memory.header_setBlockPrev, e₂, Memory.header_setBlockSize, left]
    have writes₁ := memset_writes machine'.mem start 0 headerSize
    have writes₂ := m₁.setBlockSize_writes start (65536 - headerSize)
    have writes₃ := m₂.setBlockPrev_writes start 0
    have writes₄ := m₃.setBlockNext_writes start 0
    have writes₅ := m₄.setBlockFree_writes start true
    rw [← e₁] at writes₁
    rw [← e₂] at writes₂
    rw [← e₃] at writes₃
    rw [← e₄] at writes₄
    rw [← e₅] at writes₅
    have writes : machine'.mem.Writes (HeaderSpan start) m₅ :=
      writes₁.trans (writes₂.trans (writes₃.trans (writes₄.trans writes₅)))
    refine ⟨start, ⟨⟨?_, rfl, rfl, ⟨header, trivial⟩, ?_, ?_⟩, ?_, ?_, ?_⟩, rfl, ?_⟩
    · exact List.cons_ne_nil _ _
    · exact List.pairwise_singleton _ _
    · intro b inList
      rw [List.mem_singleton.mp inList]
      exact fits
    · simp only [List.map_singleton, initialBlock_extent, initialRegion_extent]
    · simp [initialRegion_extent, Interval.total]
    · exact List.isChain_singleton _
    · apply fresh.write machine' _ m₅ ready'
      apply writes.mono
      intro a inside
      have span := (fits.headerSpan_iff a).mp inside
      change start.toNat ≤ _ ∧ _ < start.toNat + 32 at span
      refine ⟨⟨start, kheapInitPages⟩, List.mem_singleton_self _, ?_⟩
      rw [initialRegion_extent]
      change start.toNat ≤ _ ∧ _ < start.toNat + 65536
      omega

/-! ## Sound sessions -/

/-- The invariant of runs. -/
structure Sound (Ready : Machine → List Region → Prop) (s : Session) (bs : List Block) : Prop where
  /-- The heap is well formed. -/
  inv : HeapInv s.heap bs
  /-- The page frame allocator can be called. -/
  ready : Ready s.heap.machine s.heap.regions
  /-- The first region is that of `kheap_init`. -/
  first : ∃ start rest, s.heap.regions = ⟨start, kheapInitPages⟩ :: rest
  /-- Live allocations are blocks in use with room for them. -/
  allocated : ∀ x ∈ s.live, ∃ b ∈ bs, b.free = false ∧ b.pointer = x.pointer ∧
    x.size.toNat ≤ b.size.toNat
  /-- Blocks in use are live allocations. -/
  live : ∀ b ∈ bs, b.free = false → ∃ x ∈ s.live, x.pointer = b.pointer
  /-- Live allocations have different pointers. -/
  distinct : (s.live.map Allocation.pointer).Nodup
  /-- Released pointers are recognised. -/
  freed : ∀ p ∈ s.freed, Stale s.heap.mem bs (p - headerSize)
  /-- Live allocations hold what their owners wrote. -/
  contents : ∀ a v, s.contents a = some v → s.heap.mem.byte a = v ∧ ∃ x ∈ s.live, x.Has a

/-- Blocks of a list with one pointer are the same. -/
theorem Listed.eq_of_pointer {b c : Block} (listed : Listed h bs) (inB : b ∈ bs) (inC : c ∈ bs)
    (same : b.pointer = c.pointer) : b = c := by
  apply listed.eq_of_addr inB inC
  rw [← b.pointer_sub, same, c.pointer_sub]

/-- The block of a live allocation. -/
theorem Sound.block (sound : Sound Ready s bs) {x : Allocation} (inLive : x ∈ s.live) :
    ∃ b ∈ bs, b.free = false ∧ b.pointer = x.pointer ∧
      ∀ a, x.Has a → b.payload.Has a.toNat := by
  obtain ⟨b, inList, used, same, room⟩ := sound.allocated x inLive
  refine ⟨b, inList, used, same, fun a has => ?_⟩
  apply (sound.inv.listed.fits b inList).span_le room
  rw [same]
  exact has

/-- A fresh session is sound. -/
theorem sound_init {start : UInt64} (inv : HeapInv h [initialBlock start])
    (regions : h.regions = [⟨start, kheapInitPages⟩]) (ready : Ready h.machine h.regions) :
    Sound Ready ⟨h, [], [], fun _ => none⟩ [initialBlock start] where
  inv := inv
  ready := ready
  first := ⟨start, [], regions⟩
  allocated := by simp
  live := by
    intro b inList used
    rw [List.mem_singleton.mp inList] at used
    cases used
  distinct := List.nodup_nil
  freed := by simp
  contents := by simp

/-- An allocation keeps a session sound. -/
theorem Sound.allocate (sound : Sound Ready s bs) {size : UInt64}
    (allocated : Allocated Ready s.heap h bs cs size b) :
    Sound Ready ⟨h, ⟨b.pointer, size⟩ :: s.live, [], s.contents⟩ cs where
  inv := allocated.inv
  ready := allocated.ready
  first := by
    obtain ⟨start, rest, first⟩ := sound.first
    obtain ⟨more, regions⟩ := allocated.regions
    exact ⟨start, rest ++ more, by rw [regions, first]; rfl⟩
  allocated := by
    intro x inLive
    rw [List.mem_cons] at inLive
    rcases inLive with rfl | old
    · exact ⟨b, (allocated.used b allocated.taken).mpr (Or.inr rfl), allocated.taken, rfl,
        allocated.room⟩
    · obtain ⟨c, inList, used, same, room⟩ := sound.allocated x old
      exact ⟨c, (allocated.used c used).mpr (Or.inl inList), used, same, room⟩
  live := by
    intro c inList used
    rcases (allocated.used c used).mp inList with old | rfl
    · obtain ⟨x, inLive, same⟩ := sound.live c old used
      exact ⟨x, List.mem_cons_of_mem _ inLive, same⟩
    · exact ⟨_, List.mem_cons_self, rfl⟩
  distinct := by
    apply List.nodup_cons.mpr
    refine ⟨fun inLive => ?_, sound.distinct⟩
    obtain ⟨x, inX, same⟩ := List.mem_map.mp inLive
    obtain ⟨c, inList, used, pointer, -⟩ := sound.allocated x inX
    have inC := (allocated.used c used).mpr (Or.inl inList)
    have inB := (allocated.used b allocated.taken).mpr (Or.inr rfl)
    have equal := allocated.inv.listed.eq_of_pointer inC inB (pointer.trans same)
    rw [equal] at inList
    exact allocated.fresh inList
  freed := by simp
  contents := by
    intro a v wrote
    obtain ⟨holds, x, inLive, has⟩ := sound.contents a v wrote
    refine ⟨?_, x, List.mem_cons_of_mem _ inLive, has⟩
    obtain ⟨c, inList, used, -, payload⟩ := sound.block inLive
    rw [allocated.writes.byte_eq fun spared => spared c inList used (payload a has), holds]

/-- The header that `kfree` reads for a released pointer. -/
theorem Block.stale_pointer {m : Memory} (stale : Stale m cs b.addr) :
    Stale m cs (b.pointer - headerSize) := by
  rw [b.pointer_sub]
  exact stale

/-- The release of a live pointer keeps a session sound. -/
theorem Sound.release (sound : Sound Ready s bs) (fresh : source.Fresh boot Ready) (inList : b ∈ bs)
    (used : b.free = false) :
    ∃ cs, Release s.heap (kfree b.pointer s.heap) bs cs b ∧
      Sound Ready
        { heap := kfree b.pointer s.heap
          live := s.live.filter fun x => x.pointer ≠ b.pointer
          freed := if b.pointer = 0 then s.freed else b.pointer :: s.freed
          contents := fun a =>
            if ∃ x ∈ s.live, x.pointer = b.pointer ∧ x.Has a then none else s.contents a } cs := by
  obtain ⟨cs, release⟩ := sound.inv.kfree inList used
  have listed := sound.inv.listed
  have fits := listed.fits b inList
  refine ⟨cs, release, release.inv, ?_, ?_, ?_, ?_, ?_, ?_, ?_⟩
  · apply release.keeps.ready fresh sound.ready
    apply release.writes.mono
    intro a byte
    have tiles := release.inv.tiles
    rw [release.keeps.regions] at tiles
    exact release.inv.listed.inRegions_of_allocatorByte tiles byte
  · rw [release.keeps.regions]
    exact sound.first
  · intro x inLive
    rw [List.mem_filter, decide_eq_true_eq] at inLive
    obtain ⟨c, inC, usedC, same, room⟩ := sound.allocated x inLive.1
    have different : c ≠ b := by
      rintro rfl
      exact inLive.2 same.symm
    exact ⟨c, (release.used c usedC).mpr ⟨inC, different⟩, usedC, same, room⟩
  · intro c inC usedC
    obtain ⟨old, different⟩ := (release.used c usedC).mp inC
    obtain ⟨x, inLive, same⟩ := sound.live c old usedC
    refine ⟨x, ?_, same⟩
    rw [List.mem_filter, decide_eq_true_eq]
    refine ⟨inLive, fun pointer => different ?_⟩
    exact listed.eq_of_pointer old inList (same.symm.trans pointer)
  · exact sound.distinct.sublist (List.filter_sublist.map _)
  · intro p inFreed
    rw [if_neg fits.pointer_ne_zero, List.mem_cons] at inFreed
    rcases inFreed with rfl | old
    · exact Block.stale_pointer release.own
    · exact release.stale _ (sound.freed p old)
  · intro a v wrote
    dsimp only at wrote
    by_cases gone : ∃ x ∈ s.live, x.pointer = b.pointer ∧ x.Has a
    · rw [if_pos gone] at wrote
      cases wrote
    · rw [if_neg gone] at wrote
      obtain ⟨holds, x, inLive, has⟩ := sound.contents a v wrote
      have kept : x.pointer ≠ b.pointer := fun same => gone ⟨x, inLive, same, has⟩
      refine ⟨?_, x, ?_, has⟩
      · obtain ⟨c, inC, usedC, same, payload⟩ := sound.block inLive
        have different : c ≠ b := by
          rintro rfl
          exact kept same.symm
        have inCs := (release.used c usedC).mpr ⟨inC, different⟩
        rw [release.writes.byte_eq (release.inv.listed.not_allocatorByte inCs usedC (payload a has)),
          holds]
      · rw [List.mem_filter, decide_eq_true_eq]
        exact ⟨inLive, kept⟩

/-- A release that the heap ignores keeps a session sound. -/
theorem Sound.ignore (sound : Sound Ready s bs) {ptr : UInt64} (same : kfree ptr s.heap = s.heap)
    (other : ∀ x ∈ s.live, x.pointer ≠ ptr)
    (stale : ptr ≠ 0 → Stale s.heap.mem bs (ptr - headerSize)) :
    Sound Ready
      { heap := kfree ptr s.heap
        live := s.live.filter fun x => x.pointer ≠ ptr
        freed := if ptr = 0 then s.freed else ptr :: s.freed
        contents := fun a =>
          if ∃ x ∈ s.live, x.pointer = ptr ∧ x.Has a then none else s.contents a } bs := by
  have live : s.live.filter (fun x => x.pointer ≠ ptr) = s.live := by
    apply List.filter_eq_self.mpr
    intro x inLive
    exact decide_eq_true (other x inLive)
  have contents : (fun a => if ∃ x ∈ s.live, x.pointer = ptr ∧ x.Has a then none else s.contents a) =
      s.contents := by
    funext a
    apply if_neg
    rintro ⟨x, inLive, pointer, -⟩
    exact other x inLive pointer
  rw [same, live, contents]
  refine ⟨sound.inv, sound.ready, sound.first, sound.allocated, sound.live, sound.distinct, ?_,
    sound.contents⟩
  intro p inFreed
  by_cases null : ptr = 0
  · rw [if_pos null] at inFreed
    exact sound.freed p inFreed
  · rw [if_neg null, List.mem_cons] at inFreed
    rcases inFreed with rfl | old
    · exact stale null
    · exact sound.freed p old

/-- No live allocation is at `NULL`. -/
theorem Sound.pointer_ne_zero (sound : Sound Ready s bs) {x : Allocation} (inLive : x ∈ s.live) :
    x.pointer ≠ 0 := by
  obtain ⟨b, inList, -, same, -⟩ := sound.allocated x inLive
  rw [← same]
  exact (sound.inv.listed.fits b inList).pointer_ne_zero

/-- No live allocation has a stale header. -/
theorem Sound.not_stale (sound : Sound Ready s bs) {x : Allocation} (inLive : x ∈ s.live) :
    ¬ Stale s.heap.mem bs (x.pointer - headerSize) := by
  intro stale
  obtain ⟨b, inList, used, same, -⟩ := sound.allocated x inLive
  have listed := sound.inv.listed
  have flag := stale.blockFree listed
  obtain ⟨before, after, rfl⟩ := List.append_of_mem inList
  rw [← same, b.pointer_sub, listed.fields.2.1, used] at flag
  cases flag

/-- An owner's write keeps a session sound. -/
theorem Sound.write (sound : Sound Ready s bs) (fresh : source.Fresh boot Ready) {x : Allocation}
    (inLive : x ∈ s.live) {a : UInt64} (has : x.Has a) (v : UInt8) :
    Sound Ready
      { s with
        heap := s.heap.withMem (s.heap.mem.store8 a v)
        contents := fun b => if b = a then some v else s.contents b } bs := by
  obtain ⟨b, inList, used, same, payload⟩ := sound.block inLive
  have listed := sound.inv.listed
  have writes : s.heap.mem.Writes (fun a => b.payload.Has a.toNat) (s.heap.mem.store8 a v) := by
    apply (s.heap.mem.store8_writes a v).mono
    rintro y rfl
    exact payload _ has
  refine ⟨sound.inv.write inList writes, ?_, sound.first, sound.allocated, sound.live, sound.distinct,
    ?_, ?_⟩
  · apply fresh.write _ _ _ sound.ready
    exact writes.mono fun y inside => sound.inv.inRegions_of_payload inList inside
  · intro p inFreed
    apply (sound.freed p inFreed).write writes listed.fits
    intro c inC free y inside own
    have different : b ≠ c := by
      rintro rfl
      exact absurd (used.symm.trans free) Bool.false_ne_true
    exact listed.payload_apart inList inC different own inside
  · intro y w wrote
    change (if y = a then v else s.heap.mem.byte y) = w ∧ _
    dsimp only at wrote
    by_cases here : y = a
    · rw [if_pos here] at wrote ⊢
      exact ⟨Option.some.inj wrote, x, inLive, here ▸ has⟩
    · rw [if_neg here] at wrote ⊢
      exact sound.contents y w wrote

/-- The payload of a live allocation as its header describes it. -/
theorem Sound.inBlock (sound : Sound Ready s bs) {x : Allocation} (inLive : x ∈ s.live) :
    ∃ b ∈ bs, b.free = false ∧ b.pointer = x.pointer ∧
      ∀ a, x.InBlock s.heap a ↔ b.payload.Has a.toNat := by
  obtain ⟨b, inList, used, same, -⟩ := sound.allocated x inLive
  have listed := sound.inv.listed
  refine ⟨b, inList, used, same, fun a => ?_⟩
  have size : s.heap.mem.blockSize b.addr = b.size := by
    obtain ⟨before, after, rfl⟩ := List.append_of_mem inList
    exact listed.fields.1
  rw [Allocation.InBlock, ← same, b.pointer_sub, size, (listed.fits b inList).span_payload_iff]

/-! ## Runs -/

/-- The bytes outside the payloads of the allocations that a call leaves live. -/
def Untouched (s s' : Session) (a : UInt64) : Prop :=
  ∀ x ∈ s.live, x ∈ s'.live → ¬ x.InBlock s.heap a

/-- Bytes that no block in use owns lie outside the payloads of live allocations. -/
theorem Sound.untouched_of_spared (sound : Sound Ready s bs) {a : UInt64} (spared : Spared bs a) :
    Untouched s s' a := by
  intro x inLive _ inside
  obtain ⟨b, inList, used, -, same⟩ := sound.inBlock inLive
  exact spared b inList used ((same a).mp inside)

/-- An allowed call keeps a session sound, and a call of the allocator writes to no payload of
an allocation that stays live; its only failure is the panic of the page frame allocator. -/
theorem Sound.perform (sound : Sound Ready s bs) (fresh : source.Fresh boot Ready) {c : HeapCall}
    (allowed : c.Allowed s) :
    Meets (c.perform boot source s)
      (fun s' => (∃ cs, Sound Ready s' cs) ∧
        (c.OfAllocator → s.heap.mem.Writes (Untouched s s') s'.heap.mem))
      (fun e => e = .panic "Out of Memory!") := by
  cases c with
  | kmalloc size =>
    apply (sound.inv.kmalloc_meets fresh sound.ready allowed).bind
    rintro ⟨ptr, h'⟩ ⟨cs, b, rfl, allocated⟩
    refine ⟨⟨cs, sound.allocate allocated⟩, fun _ => ?_⟩
    exact allocated.writes.mono fun a spared => sound.untouched_of_spared spared
  | kzalloc size =>
    apply (sound.inv.kzalloc_meets fresh sound.ready allowed).bind
    rintro ⟨ptr, h'⟩ ⟨cs, b, rfl, allocated, -⟩
    refine ⟨⟨cs, sound.allocate allocated⟩, fun _ => ?_⟩
    exact allocated.writes.mono fun a spared => sound.untouched_of_spared spared
  | kfree ptr =>
    have ignored (same : kfree ptr s.heap = s.heap) (other : ∀ x ∈ s.live, x.pointer ≠ ptr)
        (stale : ptr ≠ 0 → Stale s.heap.mem bs (ptr - headerSize)) :
        Meets (HeapCall.perform boot source (.kfree ptr) s)
          (fun s' => (∃ cs, Sound Ready s' cs) ∧
            (True → s.heap.mem.Writes (Untouched s s') s'.heap.mem))
          (fun e => e = .panic "Out of Memory!") := by
      refine ⟨⟨bs, sound.ignore same other stale⟩, fun _ => ?_⟩
      change s.heap.mem.Writes _ (kfree ptr s.heap).mem
      rw [same]
    rcases allowed with rfl | live | inFreed
    · exact ignored (kfree_null s.heap) (fun x inLive => sound.pointer_ne_zero inLive)
        fun notNull => absurd rfl notNull
    · obtain ⟨x, inLive, rfl⟩ := List.mem_map.mp live
      obtain ⟨b, inList, used, same, -⟩ := sound.allocated x inLive
      obtain ⟨cs, release, sound'⟩ := sound.release fresh inList used
      rw [same] at release sound'
      refine ⟨⟨cs, sound'⟩, fun _ => ?_⟩
      apply release.writes.mono
      intro a byte y inY kept inside
      obtain ⟨c, inC, usedC, sameC, payload⟩ := sound.inBlock inY
      have different : c ≠ b := by
        rintro rfl
        have notSame : y.pointer ≠ x.pointer := by simpa using (List.mem_filter.mp kept).2
        exact notSame (sameC.symm.trans same)
      have inCs := (release.used c usedC).mpr ⟨inC, different⟩
      exact release.inv.listed.not_allocatorByte inCs usedC ((payload a).mp inside) byte
    · have stale := sound.freed ptr inFreed
      apply ignored (sound.inv.listed.kfree_stale stale)
      · rintro x inLive rfl
        exact sound.not_stale inLive stale
      · exact fun _ => stale
  | write a v =>
    obtain ⟨x, inLive, has⟩ := allowed
    exact ⟨⟨bs, sound.write fresh inLive has v⟩, fun absurd => absurd.elim⟩

/-- Every session of a run is sound. -/
theorem HeapRun.sound (run : HeapRun boot source machine s) (fresh : source.Fresh boot Ready)
    (ready : Ready machine []) : ∃ bs, Sound Ready s bs := by
  induction run with
  | init h returned =>
    obtain ⟨start, inv, regions, ready'⟩ := (kheapInit_meets fresh ready).of_ok returned
    exact ⟨_, sound_init inv regions ready'⟩
  | call s s' c _ allowed returned ih =>
    obtain ⟨bs, sound⟩ := ih
    exact ((sound.perform fresh allowed).of_ok returned).1

end Symphony
