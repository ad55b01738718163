import Symphony.Verif.HeapAlign

/-!
# The counter of usable bytes

`kheap_init` and `kheap_extend` count the usable bytes of each region as one block. Splits and
merges change the number of blocks, but not the counter, so it stays the size of the heap without
a header for each region. It is the sum over the block list as long as no call splits or merges
a block.
-/

namespace Symphony

variable {boot : Boot} {source : PageSource} {Ready : Machine → List Region → Prop}
variable {machine : Machine} {h h' : Kheap} {bs cs : List Block} {b c : Block} {s s' : Session}
variable {r size : UInt64}

/-! ## Splits and merges -/

/-- The counter is the sum of the sizes in the block list: the size of the heap without a header
for each block. -/
def UsableExact (h : Kheap) : Prop :=
  ∃ bs, Listed h bs ∧ h.kheapSizeUsable.toNat = (bs.map fun b => b.size.toNat).sum ∧
    h.kheapSizeUsable.toNat + 32 * bs.length = h.kheapSize.toNat

/-- The call leaves the blocks of a list whole: too little is left of the block that it takes for
another header, or the block that it releases touches no free neighbour. -/
def HeapCall.LeavesWhole (bs : List Block) : HeapCall → Prop
  | kmalloc size => Unsplit (kmallocRound size) bs
  | kzalloc size => Unsplit (kmallocRound size) bs
  | kfree ptr => Separate (Block.markFree [ptr] bs)
  | write _ _ => True

/-! ## The counter -/

/-- Stores do not change the counter. -/
theorem Kheap.withMem_usable (h : Kheap) (m : Memory) :
    (h.withMem m).kheapSizeUsable = h.kheapSizeUsable := rfl

/-- `kfree` does not change the counter. -/
theorem kfree_usable (ptr : UInt64) (h : Kheap) :
    (kfree ptr h).kheapSizeUsable = h.kheapSizeUsable := by
  have next (bh : UInt64) (h : Kheap) :
      (kfreeMergeNext bh h).kheapSizeUsable = h.kheapSizeUsable := by
    unfold kfreeMergeNext
    dsimp only
    split <;> rfl
  have prev (bh : UInt64) (h : Kheap) :
      (kfreeMergePrev bh h).kheapSizeUsable = h.kheapSizeUsable := by
    unfold kfreeMergePrev
    dsimp only
    split <;> rfl
  unfold kfree
  dsimp only
  split
  · rfl
  · split
    · rfl
    · rw [prev, next, Kheap.withMem_usable]

/-- Taking a block does not change the counter. -/
theorem kmallocTry_usable {bh : UInt64} (tried : kmallocTry size bh h = some h') :
    h'.kheapSizeUsable = h.kheapSizeUsable := by
  unfold kmallocTry at tried
  dsimp only at tried
  split at tried
  · cases tried
  · split at tried
    · obtain rfl := Option.some.inj tried
      rfl
    · split at tried
      · obtain rfl := Option.some.inj tried
        rfl
      · cases tried

/-- The search does not change the counter. -/
theorem kmallocSearch_usable {fuel : Nat} {bh ptr : UInt64}
    (searched : kmallocSearch size h fuel bh = .ok (some (ptr, h'))) :
    h'.kheapSizeUsable = h.kheapSizeUsable := by
  induction fuel generalizing bh with
  | zero =>
    rw [kmallocSearch] at searched
    split at searched <;> cases searched
  | succ fuel ih =>
    rw [kmallocSearch] at searched
    split at searched
    · cases searched
    · split at searched
      · next found tried =>
        obtain ⟨-, rfl⟩ := Prod.mk.inj (Option.some.inj (Except.ok.inj searched))
        exact kmallocTry_usable tried
      · exact ih searched

/-- An extension counts the usable bytes of its block. -/
theorem kheapExtend_usable (run : kheapExtend boot source size h = .ok h') :
    h'.kheapSizeUsable = h.kheapSizeUsable + h'.mem.blockSize h'.blockListEnd := by
  obtain ⟨out, -, returned⟩ := bind_eq_ok.mp run
  obtain rfl := Except.ok.inj returned
  rfl

/-- The counter is the size of the heap without a header for each region. -/
def Booked (h : Kheap) : Prop :=
  h.kheapSizeUsable.toNat + 32 * h.regions.length = h.kheapSize.toNat

/-- The counter is exact where there are as many blocks as regions. -/
theorem Booked.exact_iff (booked : Booked h) (inv : HeapInv h bs) :
    UsableExact h ↔ bs.length = h.regions.length := by
  have bytes : ∀ bs : List Block, Interval.total (bs.map Block.extent) =
      (bs.map fun b => b.size.toNat).sum + 32 * bs.length := by
    intro bs
    induction bs with
    | nil => rfl
    | cons b bs ih =>
      change 32 + b.size.toNat + Interval.total (bs.map Block.extent) = _
      rw [ih, List.map_cons, List.sum_cons, List.length_cons]
      omega
  have total := inv.total
  rw [bytes] at total
  unfold Booked at booked
  constructor
  · rintro ⟨cs, listed, -, headers⟩
    rw [inv.listed.unique listed]
    omega
  · intro level
    exact ⟨bs, inv.listed, by omega, by omega⟩

/-! ## Numbers of blocks and regions -/

/-- What a call does to the counter and to the number of blocks. -/
structure Tallied (h h' : Kheap) (bs cs : List Block) (whole : Prop) : Prop where
  /-- The heap is well formed. -/
  inv : HeapInv h' cs
  /-- The counter stays that of the regions. -/
  booked : Booked h → Booked h'
  /-- As many blocks as regions are added exactly where the blocks stay whole. -/
  level : cs.length + h.regions.length = bs.length + h'.regions.length ↔ whole

/-- A call that keeps the regions and the counter. -/
theorem Kheap.Keeps.booked (keeps : h.Keeps h') (usable : h'.kheapSizeUsable = h.kheapSizeUsable)
    (booked : Booked h) : Booked h' := by
  unfold Booked
  rw [usable, keeps.regions, keeps.kheapSize, booked]

/-- An extension counts the usable bytes of its region. -/
theorem Extended.booked (extended : Extended Ready h h' bs r c) (inv : HeapInv h bs)
    (booked : Booked h)
    (usable : h'.kheapSizeUsable = h.kheapSizeUsable + h'.mem.blockSize h'.blockListEnd) :
    Booked h' := by
  obtain ⟨region, regions, extent, -⟩ := extended.regions
  have last : h'.blockListEnd = c.addr := by
    rw [extended.listed.last]
    simp [lastOr]
  have size : h'.mem.blockSize c.addr = c.size := extended.listed.fields.1
  have total : h'.kheapSize.toNat = h.kheapSize.toNat + (32 + c.size.toNat) := by
    rw [extended.size, inv.size, regions, List.map_append, List.map_singleton, extent]
    simp [Interval.total, Block.extent]
  have bound := h'.kheapSize.toNat_lt
  unfold Booked at booked ⊢
  have sum : (h.kheapSizeUsable + c.size).toNat = h.kheapSizeUsable.toNat + c.size.toNat :=
    toNat_add_of_fits (by omega)
  rw [usable, last, size, sum, regions, List.length_append, List.length_singleton]
  omega

/-- Taking a block keeps the number of blocks exactly where too little of it is left. -/
theorem TakenFrom.length_iff {before after : List Block} {d : Block}
    (origin : TakenFrom r before b after cs d) :
    cs.length = (before ++ b :: after).length ↔ b.size.toNat ≤ r.toNat + 32 := by
  rcases origin.list with ⟨short, -, rfl⟩ | ⟨large, -, rfl⟩
  · simp [short]
  · simp [large]

/-- Merging makes a list shorter unless no free neighbours touch. -/
theorem length_mergeFree (bs : List Block) :
    (Block.mergeFree bs).length ≤ bs.length ∧
      ((Block.mergeFree bs).length = bs.length ↔ Separate bs) := by
  induction bs with
  | nil => exact ⟨Nat.le_refl _, by simp [Block.mergeFree, Separate]⟩
  | cons b rest ih =>
    obtain ⟨shorter, same⟩ := ih
    have join (l : List Block) : (b.joinFree l).length ≤ l.length + 1 := by
      cases l with
      | nil => exact Nat.le_refl _
      | cons c l =>
        rw [Block.joinFree]
        split <;> simp
    have joined := join (Block.mergeFree rest)
    refine ⟨by rw [Block.mergeFree, List.length_cons]; omega, ?_⟩
    constructor
    · intro equal
      rw [Block.mergeFree, List.length_cons] at equal
      have separate := same.mp (by omega)
      rw [mergeFree_of_separate separate] at equal
      cases rest with
      | nil => exact List.isChain_singleton b
      | cons c rest =>
        refine List.isChain_cons_cons.mpr ⟨fun mergeable => ?_, separate⟩
        rw [Block.joinFree, if_pos mergeable] at equal
        simp at equal
    · intro separate
      rw [mergeFree_of_separate separate]

/-- Marking blocks that are free already changes nothing. -/
theorem markFree_eq_self {ptrs : List UInt64}
    (other : ∀ b ∈ bs, b.free = false → b.pointer ∉ ptrs) : Block.markFree ptrs bs = bs := by
  rw [Block.markFree]
  refine (List.map_congr_left fun b inList => ?_).trans bs.map_id'
  have flag : (b.free || decide (b.pointer ∈ ptrs)) = b.free := by
    cases free : b.free with
    | true => rfl
    | false => exact decide_eq_false (other b inList free)
  rw [flag]

/-! ## Calls -/

/-- `kmalloc` adds a block exactly where the one that it takes is split. -/
theorem HeapInv.kmalloc_tallied (inv : HeapInv h bs) (fresh : source.Fresh boot Ready)
    (ready : Ready h.machine h.regions) (small : size.toNat ≤ 2 ^ 42) {ptr : UInt64}
    (run : kmalloc boot source size h = .ok (ptr, h')) :
    ∃ cs, Tallied h h' bs cs (Unsplit (kmallocRound size) bs) := by
  have rounded := kmallocRound_of_le small
  obtain ⟨cs, d, -, served⟩ := (inv.kmalloc_served fresh ready (by omega)).of_ok run
  cases served with
  | direct searched taken =>
    refine ⟨cs, taken.inv inv.tiles inv.size, taken.keeps.booked (kmallocSearch_usable searched), ?_⟩
    obtain ⟨before, b, after, rfl, origin⟩ := taken.origin
    rw [Unsplit, origin.find]
    dsimp only
    rw [← origin.length_iff, taken.keeps.regions]
    omega
  | extended unfit frames machine obtained h₁ c extension extended searched taken =>
    refine ⟨cs, taken.inv extended.tiles extended.size, fun booked => ?_, ?_⟩
    · apply taken.keeps.booked (kmallocSearch_usable searched)
      exact extended.booked inv booked (kheapExtend_usable extension)
    · obtain ⟨region, regions, -⟩ := extended.regions
      obtain ⟨before, b, after, same, origin⟩ := taken.origin
      have length := origin.length_iff
      rw [← same, origin.eq_last same unfit, List.length_append, List.length_singleton] at length
      rw [extended.unsplit_iff unfit, ← length, taken.keeps.regions, regions, List.length_append,
        List.length_singleton]
      omega

/-- Writes to a payload change no number. -/
theorem Tallied.write {whole : Prop} (tallied : Tallied h h' bs cs whole) (inList : b ∈ cs) {m : Memory}
    (writes : h'.mem.Writes (fun a => b.payload.Has a.toNat) m) :
    Tallied h (h'.withMem m) bs cs whole :=
  ⟨tallied.inv.write inList writes, tallied.booked, tallied.level⟩

/-- `kfree` removes blocks exactly where free neighbours touch. -/
theorem Sound.kfree_tallied (sound : Sound Ready s bs) {ptr : UInt64}
    (allowed : HeapCall.Allowed s (.kfree ptr)) :
    ∃ cs, Tallied s.heap (kfree ptr s.heap) bs cs (Separate (Block.markFree [ptr] bs)) := by
  by_cases live : ∃ b ∈ bs, b.free = false ∧ b.pointer = ptr
  · obtain ⟨b, inList, used, rfl⟩ := live
    obtain ⟨cs, release⟩ := sound.inv.kfree inList used
    refine ⟨cs, release.inv, release.keeps.booked (kfree_usable _ _), ?_⟩
    have marked : (Block.markFree [b.pointer] bs).length = bs.length := List.length_map _
    rw [release.keeps.regions, release.list_eq, ← (length_mergeFree _).2, marked]
    omega
  · have same : kfree ptr s.heap = s.heap := by
      rcases allowed with rfl | inLive | inFreed
      · exact kfree_null s.heap
      · exact absurd ((sound.live_iff ptr).mp inLive) live
      · exact sound.inv.listed.kfree_stale (sound.freed ptr inFreed)
    have unmarked : Block.markFree [ptr] bs = bs := markFree_eq_self fun b inList used member =>
      live ⟨b, inList, used, List.mem_singleton.mp member⟩
    rw [same, unmarked]
    exact ⟨bs, sound.inv, id, iff_of_true rfl sound.inv.separate⟩

/-- An allowed call keeps the number of blocks for each region exactly where it leaves the blocks
whole, and the counter is that of the regions. -/
theorem Sound.tallied (sound : Sound Ready s bs) (fresh : source.Fresh boot Ready) {c : HeapCall}
    (allowed : c.Allowed s) (run : c.perform boot source s = .ok s') :
    ∃ cs, Tallied s.heap s'.heap bs cs (c.LeavesWhole bs) := by
  cases c with
  | kmalloc size =>
    obtain ⟨⟨ptr, h⟩, returned, rest⟩ := bind_eq_ok.mp run
    obtain rfl := Except.ok.inj rest
    exact sound.inv.kmalloc_tallied fresh sound.ready allowed returned
  | kzalloc size =>
    obtain ⟨⟨ptr, h⟩, returned, rest⟩ := bind_eq_ok.mp run
    obtain rfl := Except.ok.inj rest
    obtain ⟨⟨ptr', h'⟩, taken, zeroed⟩ := bind_eq_ok.mp returned
    obtain ⟨rfl, rfl⟩ := Prod.mk.inj (Except.ok.inj zeroed)
    obtain ⟨cs, tallied⟩ := sound.inv.kmalloc_tallied fresh sound.ready allowed taken
    obtain ⟨ds, b, pointer, allocated⟩ :=
      (sound.inv.kmalloc_meets fresh sound.ready allowed).of_ok taken
    obtain rfl := tallied.inv.listed.unique allocated.inv.listed
    obtain rfl : ptr' = b.pointer := pointer
    have inList : b ∈ cs := (allocated.used b allocated.taken).mpr (Or.inr rfl)
    have fits := allocated.inv.listed.fits b inList
    exact ⟨cs, tallied.write inList ((memset_writes h'.mem b.pointer 0 size).mono fun a inside =>
      fits.span_le allocated.room inside)⟩
  | kfree ptr =>
    obtain rfl := Except.ok.inj run
    exact sound.kfree_tallied allowed
  | write a v =>
    obtain rfl := Except.ok.inj run
    obtain ⟨x, inLive, has⟩ := allowed
    obtain ⟨b, inList, -, -, payload⟩ := sound.block inLive
    have start : Tallied s.heap s.heap bs bs True := ⟨sound.inv, id, iff_of_true rfl trivial⟩
    exact ⟨bs, start.write inList ((s.heap.mem.store8_writes a v).mono fun y here => by
      rw [show y = a from here]
      exact payload a has)⟩

/-! ## Runs -/

/-- Fresh heaps are counted by their region. -/
theorem kheapInit_booked (run : kheapInit boot source machine = .ok h) {start : UInt64}
    (inv : HeapInv h [initialBlock start]) (regions : h.regions = [⟨start, kheapInitPages⟩]) :
    Booked h := by
  obtain ⟨out, -, returned⟩ := bind_eq_ok.mp run
  have usable : h.kheapSizeUsable = h.mem.blockSize h.blockListStart := by
    rw [← Except.ok.inj returned]
    rfl
  have size : h.kheapSize = 65536 := by
    rw [← Except.ok.inj returned]
    rfl
  have first : h.mem.blockSize start = (initialBlock start).size :=
    (show Listed h ([] ++ initialBlock start :: []) from inv.listed).fields.1
  have place : h.blockListStart = start := inv.listed.start
  unfold Booked
  rw [usable, place, first, size, regions, initialBlock_size]
  rfl

/-- Every session of a run is sound and counted by its regions. -/
theorem HeapRun.booked (run : HeapRun boot source machine s) (fresh : source.Fresh boot Ready)
    (ready : Ready machine []) : ∃ bs, Sound Ready s bs ∧ Booked s.heap := by
  induction run with
  | init h returned =>
    obtain ⟨start, inv, regions, ready'⟩ := (kheapInit_meets fresh ready).of_ok returned
    exact ⟨_, sound_init inv regions ready', kheapInit_booked returned inv regions⟩
  | call s s' c _ allowed returned ih =>
    obtain ⟨bs, sound, booked⟩ := ih
    obtain ⟨cs, sound'⟩ := ((sound.perform fresh allowed).of_ok returned).1
    obtain ⟨ds, tallied⟩ := sound.tallied fresh allowed returned
    exact ⟨cs, sound', tallied.booked booked⟩

/-- A call from a session with an exact counter leads to one exactly where it leaves the blocks
whole. -/
theorem HeapRun.exact_iff (run : HeapRun boot source machine s) (fresh : source.Fresh boot Ready)
    (ready : Ready machine []) (exact : UsableExact s.heap) {c : HeapCall} (allowed : c.Allowed s)
    (returned : c.perform boot source s = .ok s') :
    UsableExact s'.heap ↔ ∃ bs, Listed s.heap bs ∧ c.LeavesWhole bs := by
  obtain ⟨bs, sound, booked⟩ := run.booked fresh ready
  obtain ⟨cs, tallied⟩ := sound.tallied fresh allowed returned
  have level := (booked.exact_iff sound.inv).mp exact
  have only : (∃ bs, Listed s.heap bs ∧ c.LeavesWhole bs) ↔ c.LeavesWhole bs := by
    constructor
    · rintro ⟨ds, listed, whole⟩
      rwa [sound.inv.listed.unique listed]
    · exact fun whole => ⟨bs, sound.inv.listed, whole⟩
  rw [(tallied.booked booked).exact_iff tallied.inv, only, ← tallied.level]
  omega

/-- For every run, the counter of usable bytes is exact in all sessions of the run exactly where
every call leaves the blocks whole. -/
theorem usable_exact_iff (fresh : source.Fresh boot Ready) (ready : Ready machine [])
    {calls : List (Session × HeapCall)} (trace : HeapTrace boot source machine calls s) :
    (UsableExact s.heap ∧ ∀ call ∈ calls, UsableExact call.1.heap) ↔
      ∀ call ∈ calls, ∃ bs, Listed call.1.heap bs ∧ call.2.LeavesWhole bs := by
  induction trace with
  | init h returned =>
    obtain ⟨start, inv, regions, -⟩ := (kheapInit_meets fresh ready).of_ok returned
    have booked := kheapInit_booked returned inv regions
    have exact : UsableExact h := (booked.exact_iff inv).mpr (by rw [regions]; rfl)
    simp [exact]
  | call calls s s' c before allowed returned ih =>
    have step := fun exact => before.run.exact_iff fresh ready exact allowed returned
    rw [List.forall_mem_cons, List.forall_mem_cons, ← ih]
    constructor
    · rintro ⟨after, exact, earlier⟩
      exact ⟨(step exact).mp after, exact, earlier⟩
    · rintro ⟨whole, exact, earlier⟩
      exact ⟨(step exact).mpr whole, exact, earlier⟩

/-- The initialised heap of the machine serves its first request from its only block. -/
theorem heapBoot_first {size : UInt64} (small : size.toNat ≤ 2 ^ 42)
    (room : (kmallocRound size).toNat ≤ 65504) :
    ∃ (machine : Machine) (t s : Session), PagesReady heapBoot machine [] ∧
      HeapTrace heapBoot pmmAlloc machine [(t, .kmalloc size)] s ∧
      HeapCall.perform heapBoot pmmAlloc (.kmalloc size) t = .ok s ∧ UsableExact t.heap ∧
      ((∃ bs, Listed t.heap bs ∧ (HeapCall.kmalloc size).LeavesWhole bs) ↔
        65504 ≤ (kmallocRound size).toNat + 32) := by
  obtain ⟨machine, h, -, ready, run⟩ := heapBoot_runs
  obtain ⟨start, inv, regions, -⟩ := (kheapInit_meets heapBoot_fresh ready).of_ok run
  have suits := initialBlock_suits start room
  obtain ⟨h', cs, d, allocated, -⟩ := inv.kmalloc_initial room
  have returned := perform_kmalloc (s := ⟨h, [], [], fun _ => none⟩) allocated
  have found : [initialBlock start].find? (fun b => decide (b.Suits (kmallocRound size))) =
      some (initialBlock start) := by simp [suits]
  have whole : (HeapCall.kmalloc size).LeavesWhole [initialBlock start] ↔
      65504 ≤ (kmallocRound size).toNat + 32 := by
    rw [HeapCall.LeavesWhole, Unsplit, found]
    dsimp only
    rw [initialBlock_size]
  refine ⟨machine, _, _, ready, .call [] _ _ _ (.init h run) small returned, returned,
    ((kheapInit_booked run inv regions).exact_iff inv).mpr (by rw [regions]; rfl), ?_⟩
  rw [← whole]
  constructor
  · rintro ⟨bs, listed, left⟩
    rwa [inv.listed.unique listed]
  · exact fun left => ⟨_, inv.listed, left⟩

/-- A request for all usable bytes of the initialised heap leaves its block whole. -/
theorem usable_exact_iff_heapBoot : ∃ (machine : Machine) (t s : Session),
    HeapTrace heapBoot pmmAlloc machine [(t, .kmalloc 65504)] s ∧
      UsableExact s.heap ∧ ∀ call ∈ [(t, HeapCall.kmalloc 65504)], UsableExact call.1.heap := by
  have small : (65504 : UInt64).toNat ≤ 2 ^ 42 := by decide
  obtain ⟨machine, t, s, ready, trace, -, -, whole⟩ := heapBoot_first small (by decide)
  refine ⟨machine, t, s, trace, (usable_exact_iff heapBoot_fresh ready trace).mpr ?_⟩
  rw [List.forall_mem_singleton]
  exact whole.mpr (by decide)

/-- A request of a hundred bytes splits the only block of the initialised heap, and the counter is
not the sum of the two. -/
theorem split_miscounts : ∃ (machine : Machine) (t s : Session),
    HeapTrace heapBoot pmmAlloc machine [(t, .kmalloc 100)] s ∧ ¬ UsableExact s.heap := by
  have small : (100 : UInt64).toNat ≤ 2 ^ 42 := by decide
  obtain ⟨machine, t, s, ready, trace, returned, exact, whole⟩ := heapBoot_first small (by decide)
  refine ⟨machine, t, s, trace, fun after => ?_⟩
  cases trace with
  | call _ _ _ _ before allowed =>
    have left := (before.run.exact_iff heapBoot_fresh ready exact allowed returned).mp after
    exact absurd (whole.mp left) (by decide)

end Symphony
