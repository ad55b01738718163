import Symphony.Verif.HeapSearch

/-!
# Allocation

`kmalloc` and `kzalloc` on well-formed heaps. Where no block has room, a fresh region is
appended as one free block. That block may touch a free last block, but the recursive call
takes from it, and so no two free neighbours touch when `kmalloc` returns.
-/

namespace Symphony

variable {h : Kheap} {bs before after : List Block} {b c : Block} {r : UInt64}

/-! ## The size of an extension -/

/-- Bytes of the region that `kheap_extend` records for a request. -/
def extendBytes (r : UInt64) : UInt64 :=
  if (r + headerSize) % pageSize ≠ 0 then alignUp (r + headerSize) pageSize else r + headerSize

/-- Pages that `kheap_extend` requests. -/
def extendPages (r : UInt64) : Int32 := intOfWord (extendBytes r / pageSize)

/-- The recorded bytes are the sum of request and header, rounded up to pages. -/
theorem extendBytes_toNat (r : UInt64) :
    (extendBytes r).toNat = ((r + headerSize).toNat + 4095) / 4096 * 4096 % 2 ^ 64 := by
  have same : extendBytes r = alignUp (r + headerSize) pageSize := by
    unfold extendBytes alignUp
    by_cases whole : (r + headerSize) % pageSize = 0
    · simp only [whole, ne_eq, not_true_eq_false, ↓reduceIte]
    · simp only [whole, ne_eq, not_false_eq_true, ↓reduceIte]
  rw [same]
  exact toNat_alignUp (by decide)

/-- The recorded bytes are whole pages. -/
theorem extendBytes_dvd (r : UInt64) : (extendBytes r).toNat % 4096 = 0 := by
  have bytes := extendBytes_toNat r
  omega

/-- The requested pages are the recorded ones, narrowed to an `int`. -/
theorem extendPages_toInt (r : UInt64) :
    (extendPages r).toInt = Int.bmod ((extendBytes r).toNat / 4096 : Nat) (2 ^ 32) := by
  rw [extendPages, toInt_intOfWord, UInt64.toNat_div]
  rfl

/-- Fewer than 2^31 pages are requested as they are. -/
theorem extendPages_of_lt (small : (extendBytes r).toNat < 2 ^ 43) :
    (extendPages r).toInt = ((extendBytes r).toNat / 4096 : Nat) := by
  rw [extendPages_toInt]
  apply Int.bmod_eq_of_le <;> omega

/-- Requests up to 2^43 - 4096 bytes with their header are extended exactly. -/
theorem extendBytes_of_le (small : r.toNat + 32 ≤ 2 ^ 43 - 4096) :
    0 < (extendPages r).toInt ∧ (extendBytes r).toNat = 4096 * (extendPages r).toInt.toNat ∧
      r.toNat + 32 ≤ (extendBytes r).toNat := by
  have sum : (r + headerSize).toNat = r.toNat + 32 := toNat_add_of_fits (by change _ + 32 < _; omega)
  have bytes := extendBytes_toNat r
  rw [sum] at bytes
  have pages := extendPages_of_lt (r := r) (by omega)
  omega

/-! ## The regions and the blocks -/

/-- The blocks cover the regions. -/
theorem covers_iff_of_tiles {regions : List Region} (tiles : Interval.coalesce (bs.map Block.extent) =
    Interval.coalesce (regions.map Region.extent)) (a : Nat) :
    Interval.Covers (regions.map Region.extent) a ↔ ∃ b ∈ bs, b.extent.Has a := by
  rw [← Interval.covers_congr tiles]
  constructor
  · rintro ⟨x, inX, has⟩
    obtain ⟨b, inList, rfl⟩ := List.mem_map.mp inX
    exact ⟨b, inList, has⟩
  · rintro ⟨b, inList, has⟩
    exact ⟨b.extent, List.mem_map_of_mem inList, has⟩

/-- The bytes of the regions are those of the blocks. -/
theorem inRegions_iff_of_tiles {regions : List Region} (tiles : Interval.coalesce
    (bs.map Block.extent) = Interval.coalesce (regions.map Region.extent)) (a : UInt64) :
    InRegions regions a ↔ ∃ b ∈ bs, b.extent.Has a.toNat := by
  rw [← covers_iff_of_tiles tiles]
  constructor
  · rintro ⟨region, inList, has⟩
    exact ⟨region.extent, List.mem_map_of_mem inList, has⟩
  · rintro ⟨x, inX, has⟩
    obtain ⟨region, inList, rfl⟩ := List.mem_map.mp inX
    exact ⟨region, inList, has⟩

/-- Header and payload of a block. -/
theorem Block.Fits.extent_has (fits : b.Fits) {a : UInt64}
    (inside : HeaderSpan b.addr a ∨ b.payload.Has a.toNat) : b.extent.Has a.toNat := by
  change b.addr.toNat ≤ _ ∧ _ < b.addr.toNat + (32 + b.size.toNat)
  rcases inside with header | payload
  · rw [fits.headerSpan_iff] at header
    omega
  · rw [Block.has_payload_iff] at payload
    omega

/-- Bytes of the allocator lie in the regions. -/
theorem Listed.inRegions_of_allocatorByte (listed : Listed h bs) {regions : List Region}
    (tiles : Interval.coalesce (bs.map Block.extent) = Interval.coalesce (regions.map Region.extent))
    {a : UInt64} (byte : AllocatorByte bs a) : InRegions regions a := by
  obtain ⟨b, inList, inside⟩ := byte
  apply (inRegions_iff_of_tiles tiles a).mpr
  exact ⟨b, inList, (listed.fits b inList).extent_has (inside.imp id And.right)⟩

/-- The payload of a block lies in the regions. -/
theorem HeapInv.inRegions_of_payload (inv : HeapInv h bs) (inList : b ∈ bs) {a : UInt64}
    (inside : b.payload.Has a.toNat) : InRegions h.regions a := by
  apply (inRegions_iff_of_tiles inv.tiles a).mpr
  exact ⟨b, inList, (inv.listed.fits b inList).extent_has (Or.inr inside)⟩

/-- What an extension of the heap guarantees; the new free block may touch a free one. -/
structure Extended (Ready : Machine → List Region → Prop) (h h' : Kheap) (bs : List Block)
    (r : UInt64) (c : Block) : Prop where
  /-- The block list. -/
  listed : Listed h' (bs ++ [c])
  /-- The blocks cover the regions. -/
  tiles : Interval.coalesce ((bs ++ [c]).map Block.extent) =
    Interval.coalesce (h'.regions.map Region.extent)
  /-- Bytes of all regions. -/
  size : h'.kheapSize.toNat = Interval.total (h'.regions.map Region.extent)
  /-- One region is obtained, and the new block is all of it. -/
  regions : ∃ region, h'.regions = h.regions ++ [region] ∧ region.extent = c.extent ∧
    region.pages = extendPages r
  /-- The recorded bytes. -/
  grown : h'.kheapSize = h.kheapSize + extendBytes r
  /-- The new block is free. -/
  free : c.free = true
  /-- It has the recorded size. -/
  bytes : 32 + c.size.toNat = (extendBytes r).toNat
  /-- Outside the new block only headers and memory of the page frame allocator are written. -/
  writes : h.mem.Writes
    (fun a => HeaderByte bs a ∨ c.extent.Has a.toNat ∨ ¬ InRegions h.regions a) h'.mem
  /-- The page frame allocator can be called again. -/
  ready : Ready h'.machine h'.regions

/-- `kheap_extend` hands on a failure of the page frame allocator. -/
theorem kheapExtend_error {boot : Boot} {source : PageSource} {e : Fault}
    (failed : source (extendPages r) h.machine = .error e) :
    kheapExtend boot source r h = .error e := by
  change (source (extendPages r) h.machine >>= _) = _
  rw [failed]
  rfl

/-- `kheap_extend` returns where the page frame allocator does, and records its sum. -/
theorem kheapExtend_ok (boot : Boot) {source : PageSource} {frames : UInt64} {machine : Machine}
    (obtained : source (extendPages r) h.machine = .ok (frames, machine)) :
    ∃ h₁, kheapExtend boot source r h = .ok h₁ ∧ h₁.kheapSize = h.kheapSize + extendBytes r ∧
      h₁.regions = h.regions ++ [⟨frames + boot.offset, extendPages r⟩] := by
  unfold kheapExtend
  change ∃ h₁, (source (extendPages r) h.machine >>= _) = .ok h₁ ∧ _
  rw [obtained, ok_bind]
  exact ⟨_, rfl, rfl, rfl⟩

/-- A region that is apart from the regions obtained is apart from all blocks. -/
theorem HeapInv.region_apart (inv : HeapInv h bs) {region : Region} (positive : 0 < region.extent.len)
    (apart : ∀ old ∈ h.regions, old.extent.Apart region.extent) (inList : b ∈ bs) :
    b.extent.Apart region.extent := by
  apply Interval.apart_of_disjoint (Nat.add_pos_left (by decide) _) positive
  intro a has
  obtain ⟨x, inX, hasX⟩ := (covers_iff_of_tiles inv.tiles a).mpr ⟨b, inList, has⟩
  obtain ⟨old, inOld, rfl⟩ := List.mem_map.mp inX
  exact (apart old inOld).not_has hasX

/-- Writes outside the regions leave the headers alone. -/
theorem HeapInv.header_kept (inv : HeapInv h bs) {more : List Region} {m : Memory}
    (writes : h.mem.Writes (fun a => ¬ InRegions (h.regions ++ more) a) m) (inList : b ∈ bs) :
    m.header b.addr = h.mem.header b.addr := by
  apply writes.header_eq
  intro a own outside
  apply outside
  have byte : AllocatorByte bs a := AllocatorByte.header inList own
  obtain ⟨old, inOld, has⟩ := inv.listed.inRegions_of_allocatorByte inv.tiles byte
  exact ⟨old, List.mem_append_left _ inOld, has⟩

/-- Regions that blocks cover hold less than 2^64 bytes. -/
theorem Listed.total_lt (listed : Listed h bs) {regions : List Region}
    (tiles : Interval.coalesce (bs.map Block.extent) = Interval.coalesce (regions.map Region.extent)) :
    Interval.total (regions.map Region.extent) < 2 ^ 64 := by
  have bounded : Interval.total (bs.map Block.extent) ≤ 2 ^ 64 - 1 := by
    apply Interval.total_le (List.pairwise_map.mpr listed.apart)
    intro x inX
    obtain ⟨b, inList, rfl⟩ := List.mem_map.mp inX
    have below := (listed.fits b inList).2
    omega
  rw [Interval.total_congr tiles] at bounded
  omega

/-- `kheap_extend` appends the region as a free block when the page count survives its
conversion. -/
theorem HeapInv.extends {boot : Boot} {source : PageSource} {Ready : Machine → List Region → Prop}
    (inv : HeapInv h bs) (fresh : source.Fresh boot Ready) (ready : Ready h.machine h.regions)
    (positive : 0 < (extendPages r).toInt)
    (exact : (extendBytes r).toNat = 4096 * (extendPages r).toInt.toNat) {frames : UInt64}
    {machine : Machine} (obtained : source (extendPages r) h.machine = .ok (frames, machine)) :
    ∃ h' c, kheapExtend boot source r h = .ok h' ∧ Extended Ready h h' bs r c := by
  obtain ⟨base, isBase⟩ : ∃ base, base = frames + boot.offset := ⟨_, rfl⟩
  obtain ⟨region, isRegion⟩ : ∃ region : Region, region = ⟨base, extendPages r⟩ := ⟨_, rfl⟩
  have facts := fresh.alloc h.machine h.regions (extendPages r) ready positive frames machine obtained
  rw [← isBase, ← isRegion] at facts
  obtain ⟨basePositive, stop, apart, writes, ready'⟩ := facts
  obtain ⟨size, isSize⟩ : ∃ size, size = extendBytes r := ⟨_, rfl⟩
  have extent : region.extent = ⟨base.toNat, size.toNat⟩ := by
    rw [isRegion, Region.extent, isSize, exact]
  have whole := extendBytes_dvd r
  rw [← isSize] at exact whole
  rw [extent] at apart stop
  change base.toNat + size.toNat < 2 ^ 64 at stop
  have basePositive : 0 < base.toNat := by
    rw [isRegion] at basePositive
    exact basePositive
  -- The new region is apart from all blocks, and the allocator left their headers alone.
  have apartBlock (b : Block) (inList : b ∈ bs) : b.extent.Apart ⟨base.toNat, size.toNat⟩ := by
    rw [← extent]
    apply inv.region_apart _ (extent ▸ apart) inList
    rw [extent]
    change 0 < size.toNat
    omega
  have same (b : Block) (inList : b ∈ bs) : machine.mem.header b.addr = h.mem.header b.addr :=
    inv.header_kept writes inList
  -- The stores of `kheap_extend`.
  obtain ⟨m₁, e₁⟩ : ∃ m₁, m₁ = memset machine.mem base 0 size := ⟨_, rfl⟩
  obtain ⟨m₂, e₂⟩ : ∃ m₂, m₂ = m₁.setBlockSize base (size - headerSize) := ⟨_, rfl⟩
  obtain ⟨m₃, e₃⟩ : ∃ m₃, m₃ = m₂.setBlockFree base true := ⟨_, rfl⟩
  obtain ⟨m₄, e₄⟩ : ∃ m₄, m₄ = m₃.setBlockPrev base h.blockListEnd := ⟨_, rfl⟩
  obtain ⟨m₅, e₅⟩ : ∃ m₅, m₅ = m₄.setBlockNext h.blockListEnd base := ⟨_, rfl⟩
  obtain ⟨m₆, e₆⟩ : ∃ m₆, m₆ = m₅.setBlockNext base 0 := ⟨_, rfl⟩
  obtain ⟨h', made⟩ : ∃ h' : Kheap, h' =
      { h with
        machine := { machine with mem := m₆ }
        blockListEnd := base
        kheapSize := h.kheapSize + size
        kheapSizeUsable := h.kheapSizeUsable + m₆.blockSize base
        regions := h.regions ++ [region] } := ⟨_, rfl⟩
  have run : kheapExtend boot source r h = .ok h' := by
    unfold kheapExtend
    change (source (extendPages r) h.machine >>= _) = _
    rw [obtained, ok_bind]
    rw [made, isRegion, e₆, e₅, e₄, e₃, e₂, e₁, isBase, isSize]
    rfl
  have memory : h'.mem = m₆ := by rw [made]; rfl
  have start : h'.blockListStart = h.blockListStart := by rw [made]
  have last : h'.blockListEnd = base := by rw [made]
  obtain ⟨listed, stores⟩ := inv.listed.append (by omega) basePositive stop apartBlock same e₁ e₂ e₃
    e₄ e₅ e₆ start last memory
  have inSpan (a : UInt64) : Span base size.toNat a ↔
      base.toNat ≤ a.toNat ∧ a.toNat < base.toNat + size.toNat := span_iff (by omega)
  obtain ⟨c, isC⟩ : ∃ c : Block, c = ⟨base, size - headerSize, true⟩ := ⟨_, rfl⟩
  rw [← isC] at listed
  have sizeC : c.size.toNat = size.toNat - 32 := by
    rw [isC]
    exact UInt64.toNat_sub_of_le _ _ (by rw [UInt64.le_iff_toNat_le]; change 32 ≤ _; omega)
  have extentC : c.extent = ⟨base.toNat, size.toNat⟩ := by
    rw [Block.extent, sizeC, isC]
    exact congrArg (Interval.mk base.toNat) (by omega)
  have regions : h'.regions = h.regions ++ [region] := by rw [made]
  have tiles : Interval.coalesce ((bs ++ [c]).map Block.extent) =
      Interval.coalesce (h'.regions.map Region.extent) := by
    rw [regions, List.map_append, List.map_append, List.map_singleton, List.map_singleton, extent,
      extentC]
    exact Interval.coalesce_append_congr inv.tiles _
  have bounded := listed.total_lt tiles
  have sum : Interval.total (h'.regions.map Region.extent) =
      Interval.total (h.regions.map Region.extent) + size.toNat := by
    rw [regions, List.map_append, List.map_singleton, extent]
    simp [Interval.total]
  have grown : h'.kheapSize = h.kheapSize + size := by rw [made]
  refine ⟨h', c, run, listed, tiles, ?_, ⟨region, regions, ?_, ?_⟩, ?_, ?_, ?_, ?_, ?_⟩
  · have old := inv.size
    rw [grown, toNat_add_of_fits (by omega)]
    omega
  · rw [extent, extentC]
  · rw [isRegion]
  · rw [grown, isSize]
  · rw [isC]
  · rw [sizeC, ← isSize]
    omega
  · apply (writes.mono fun a outside => ?_).trans (stores.mono fun a inside => ?_)
    · right; right
      rintro ⟨old, inOld, has⟩
      exact outside ⟨old, List.mem_append_left _ inOld, has⟩
    · rcases inside with own | header
      · right; left
        rw [extentC]
        exact (inSpan a).mp own
      · exact Or.inl header
  · rw [regions]
    have same : h'.machine = { machine with mem := h'.mem } := by rw [made]; rfl
    rw [same]
    apply fresh.write machine _ _ ready'
    apply stores.mono
    rintro a (own | header)
    · refine ⟨region, by simp, ?_⟩
      rw [extent]
      exact (inSpan a).mp own
    · obtain ⟨old, inOld, has⟩ := inv.listed.inRegions_of_allocatorByte inv.tiles
        header.allocatorByte
      exact ⟨old, List.mem_append_left _ inOld, has⟩

/-! ## `kmalloc` -/

/-- Rounding a request again does not change it. -/
theorem kmallocRound_kmallocRound (size : UInt64) :
    kmallocRound (kmallocRound size) = kmallocRound size := by
  unfold kmallocRound
  by_cases round : size % 10 ≠ 0
  · rw [if_pos round]
    have whole : alignUp size 16 % 16 = 0 := by
      have rounded := toNat_alignUp (x := size) (show 0 < (16 : UInt64).toNat by decide)
      rw [← UInt64.toNat_inj, UInt64.toNat_mod, rounded]
      change _ % 16 = 0
      change (size.toNat + 16 - 1) / 16 * 16 % 2 ^ 64 % 16 = 0
      omega
    have fixed : alignUp (alignUp size 16) 16 = alignUp size 16 := if_pos whole
    rw [fixed, ite_self]
  · rw [if_neg round, if_neg round]

/-- The search from the start of the list. -/
theorem Listed.searches_start (listed : Listed h bs) :
    (∀ b ∈ bs, ¬ b.Suits r) ∧ kmallocSearch r h manyTurns h.blockListStart = .ok none ∨
      ∃ before b after, bs = before ++ b :: after ∧ b.Suits r ∧ (∀ x ∈ before, ¬ x.Suits r) ∧
        ∀ h', kmallocTry r b.addr h = some h' →
          kmallocSearch r h manyTurns h.blockListStart = .ok (some (b.pointer, h')) := by
  rw [listed.start]
  have whole : Listed h ([] ++ bs) := listed
  exact whole.searches listed.length_le

variable {boot : Boot} {source : PageSource} {Ready : Machine → List Region → Prop} {size : UInt64}

/-- A search that succeeds ends the recursion. -/
theorem kmallocGo_found {found : UInt64 × Kheap} (fuel : Nat)
    (searched : kmallocSearch (kmallocRound size) h manyTurns h.blockListStart = .ok (some found)) :
    kmallocGo boot source (fuel + 1) size h = .ok found := by
  rw [kmallocGo, searched, ok_bind]

/-- A search that fails extends the heap. -/
theorem kmallocGo_none (fuel : Nat)
    (searched : kmallocSearch (kmallocRound size) h manyTurns h.blockListStart = .ok none) :
    kmallocGo boot source (fuel + 1) size h =
      kheapExtend boot source (kmallocRound size) h >>=
        kmallocGo boot source fuel (kmallocRound size) := by
  rw [kmallocGo, searched, ok_bind]

/-- The recursion may be deep enough for one extension. -/
theorem exists_manyTurns : ∃ fuel, manyTurns = fuel + 2 := ⟨2 ^ 64 - 2, by decide⟩

/-- The suitable block that the search finds is taken, where no two free neighbours touch on
either side of it. -/
theorem Listed.found (listed : Listed h bs) (suits : ∃ b ∈ bs, b.Suits r)
    (separate : ∀ before b after, bs = before ++ b :: after → b.Suits r →
      Separate before ∧ Separate (b :: after)) :
    ∃ h' cs d, kmallocSearch r h manyTurns h.blockListStart = .ok (some (d.pointer, h')) ∧
      Taken h h' bs cs r d := by
  obtain ⟨b, inList, fit⟩ := suits
  rcases listed.searches_start (r := r) with ⟨none, -⟩ | ⟨before, d, after, rfl, suits, unfit, searched⟩
  · exact absurd fit (none b inList)
  · obtain ⟨front, behind⟩ := separate before d after rfl suits
    obtain ⟨h', cs, e, tried, same, taken⟩ := listed.takes suits unfit front behind
    refine ⟨h', cs, e, ?_, taken⟩
    rw [searched h' tried, Block.pointer, Block.pointer, same]

/-- `kmalloc` takes a suitable block. -/
theorem HeapInv.kmalloc_direct (inv : HeapInv h bs) (suits : ∃ b ∈ bs, b.Suits (kmallocRound size)) :
    ∃ h' cs d, kmalloc boot source size h = .ok (d.pointer, h') ∧
      kmallocSearch (kmallocRound size) h manyTurns h.blockListStart = .ok (some (d.pointer, h')) ∧
      Taken h h' bs cs (kmallocRound size) d := by
  obtain ⟨h', cs, d, searched, taken⟩ := inv.listed.found suits fun before b after same _ => by
    have chain := List.isChain_split.mp (same ▸ inv.separate)
    exact ⟨(List.isChain_append.mp chain.1).1, chain.2⟩
  obtain ⟨fuel, turns⟩ := exists_manyTurns
  refine ⟨h', cs, d, ?_, searched, taken⟩
  rw [kmalloc, turns]
  exact kmallocGo_found (fuel + 1) searched

/-- Without a suitable block the search fails. -/
theorem Listed.searches_none (listed : Listed h bs) (unfit : ∀ b ∈ bs, ¬ b.Suits r) :
    kmallocSearch r h manyTurns h.blockListStart = .ok none := by
  rcases listed.searches_start (r := r) with ⟨-, searched⟩ | ⟨before, b, after, rfl, suits, -⟩
  · exact searched
  · exact absurd suits (unfit b (by simp))

/-- `kmalloc` halts where the page frame allocator does. -/
theorem Listed.kmalloc_halts (listed : Listed h bs)
    (unfit : ∀ b ∈ bs, ¬ b.Suits (kmallocRound size)) {e : Fault}
    (failed : source (extendPages (kmallocRound size)) h.machine = .error e) :
    kmalloc boot source size h = .error e := by
  obtain ⟨fuel, turns⟩ := exists_manyTurns
  rw [kmalloc, turns, kmallocGo_none (fuel + 1) (listed.searches_none unfit),
    kheapExtend_error failed]
  rfl

/-- The recursive call takes from the region that was appended. -/
theorem Extended.found {h' : Kheap} (extended : Extended Ready h h' bs r c) (separate : Separate bs)
    (unfit : ∀ b ∈ bs, ¬ b.Suits r) (room : r.toNat + 32 ≤ (extendBytes r).toNat) :
    ∃ h'' cs d, kmallocSearch r h' manyTurns h'.blockListStart = .ok (some (d.pointer, h'')) ∧
      Taken h' h'' (bs ++ [c]) cs r d := by
  have bytes := extended.bytes
  have suits : c.Suits r := ⟨extended.free, by omega⟩
  apply extended.listed.found ⟨c, by simp, suits⟩
  intro before b after same fit
  rcases List.eq_nil_or_concat' after with rfl | ⟨rest, z, rfl⟩
  · obtain ⟨rfl, -⟩ := List.append_inj' same rfl
    exact ⟨separate, List.isChain_singleton b⟩
  · have split : bs ++ [c] = (before ++ b :: rest) ++ [z] := by simpa using same
    obtain ⟨rfl, -⟩ := List.append_inj' split rfl
    exact absurd fit (unfit b (by simp))

/-- `kmalloc` extends the heap where no block suits, and takes from the new region. -/
theorem HeapInv.kmalloc_extended (inv : HeapInv h bs)
    (unfit : ∀ b ∈ bs, ¬ b.Suits (kmallocRound size)) (fresh : source.Fresh boot Ready)
    (ready : Ready h.machine h.regions) (small : (kmallocRound size).toNat + 32 ≤ 2 ^ 43 - 4096)
    {frames : UInt64} {machine : Machine}
    (obtained : source (extendPages (kmallocRound size)) h.machine = .ok (frames, machine)) :
    ∃ h₁ c h' cs d, kheapExtend boot source (kmallocRound size) h = .ok h₁ ∧
      Extended Ready h h₁ bs (kmallocRound size) c ∧ kmalloc boot source size h = .ok (d.pointer, h') ∧
      kmallocSearch (kmallocRound size) h₁ manyTurns h₁.blockListStart =
        .ok (some (d.pointer, h')) ∧
      Taken h₁ h' (bs ++ [c]) cs (kmallocRound size) d := by
  obtain ⟨positive, exact, room⟩ := extendBytes_of_le small
  obtain ⟨h₁, c, run, extended⟩ := inv.extends fresh ready positive exact obtained
  obtain ⟨h', cs, d, searched, taken⟩ := extended.found inv.separate unfit room
  obtain ⟨fuel, turns⟩ := exists_manyTurns
  refine ⟨h₁, c, h', cs, d, run, extended, ?_, searched, taken⟩
  rw [kmalloc, turns, kmallocGo_none (fuel + 1) (inv.listed.searches_none unfit), run, ok_bind]
  apply kmallocGo_found fuel
  rw [kmallocRound_kmallocRound]
  exact searched

/-- How `kmalloc` comes by its block. -/
inductive Served (boot : Boot) (source : PageSource) (Ready : Machine → List Region → Prop)
    (h h' : Kheap) (bs cs : List Block) (r : UInt64) (b : Block) : Prop where
  /-- From the blocks of the list. -/
  | direct (searched : kmallocSearch r h manyTurns h.blockListStart = .ok (some (b.pointer, h')))
    (taken : Taken h h' bs cs r b)
  /-- From a new region, since no block suits. -/
  | extended (unfit : ∀ x ∈ bs, ¬ x.Suits r) (frames : UInt64) (machine : Machine)
    (obtained : source (extendPages r) h.machine = .ok (frames, machine)) (h₁ : Kheap) (c : Block)
    (extension : kheapExtend boot source r h = .ok h₁) (extended : Extended Ready h h₁ bs r c)
    (searched : kmallocSearch r h₁ manyTurns h₁.blockListStart = .ok (some (b.pointer, h')))
    (taken : Taken h₁ h' (bs ++ [c]) cs r b)

/-- `kmalloc` is served, or halts with the panic of the page frame allocator. -/
theorem HeapInv.kmalloc_served (inv : HeapInv h bs) (fresh : source.Fresh boot Ready)
    (ready : Ready h.machine h.regions) (small : (kmallocRound size).toNat + 32 ≤ 2 ^ 43 - 4096) :
    Meets (kmalloc boot source size h)
      (fun out => ∃ cs b, out.1 = b.pointer ∧
        Served boot source Ready h out.2 bs cs (kmallocRound size) b)
      (fun e => e = .panic "Out of Memory!") := by
  by_cases suits : ∃ b ∈ bs, b.Suits (kmallocRound size)
  · obtain ⟨h', cs, d, run, searched, taken⟩ := inv.kmalloc_direct suits
    rw [run]
    exact ⟨cs, d, rfl, .direct searched taken⟩
  · have unfit : ∀ b ∈ bs, ¬ b.Suits (kmallocRound size) := fun b inList fit => suits ⟨b, inList, fit⟩
    cases obtained : source (extendPages (kmallocRound size)) h.machine with
    | error e =>
      rw [inv.listed.kmalloc_halts unfit obtained]
      exact fresh.halts _ _ _ ready (extendBytes_of_le small).1 e obtained
    | ok out =>
      obtain ⟨frames, machine⟩ := out
      obtain ⟨h₁, c, h', cs, d, extension, extended, run, searched, taken⟩ :=
        inv.kmalloc_extended unfit fresh ready small obtained
      rw [run]
      exact ⟨cs, d, rfl,
        .extended unfit frames machine obtained h₁ c extension extended searched taken⟩

/-! ## What an allocation guarantees -/

/-- The bytes that no block in use owns. -/
def Spared (bs : List Block) (a : UInt64) : Prop := ∀ x ∈ bs, x.free = false → ¬ x.payload.Has a.toNat

/-- What a successful `kmalloc` guarantees. -/
structure Allocated (Ready : Machine → List Region → Prop) (h h' : Kheap) (bs cs : List Block)
    (size : UInt64) (b : Block) : Prop where
  /-- The heap is well formed again. -/
  inv : HeapInv h' cs
  /-- The page frame allocator can be called again. -/
  ready : Ready h'.machine h'.regions
  /-- Regions are only added. -/
  regions : ∃ more, h'.regions = h.regions ++ more
  /-- The block joins those in use. -/
  used : ∀ x : Block, x.free = false → (x ∈ cs ↔ x ∈ bs ∨ x = b)
  /-- It was not among them. -/
  fresh : b ∉ bs
  /-- The block is in use. -/
  taken : b.free = false
  /-- It has room for the request. -/
  room : size.toNat ≤ b.size.toNat
  /-- No payload of a block in use is written. -/
  writes : h.mem.Writes (Spared bs) h'.mem

/-- Rounding does not make a request of at most 2^42 bytes smaller or much larger. -/
theorem kmallocRound_of_le (small : size.toNat ≤ 2 ^ 42) :
    size.toNat ≤ (kmallocRound size).toNat ∧ (kmallocRound size).toNat ≤ 2 ^ 42 + 15 := by
  unfold kmallocRound
  by_cases round : size % 10 ≠ 0
  · rw [if_pos round, toNat_alignUp (by decide)]
    change _ ≤ (size.toNat + 16 - 1) / 16 * 16 % 2 ^ 64 ∧
      (size.toNat + 16 - 1) / 16 * 16 % 2 ^ 64 ≤ _
    omega
  · rw [if_neg round]
    omega

/-- Steps on well-formed heaps that keep the regions and cover the same bytes. -/
theorem Taken.tiles {h' : Kheap} {cs : List Block} (taken : Taken h h' bs cs r b) :
    Interval.coalesce (cs.map Block.extent) = Interval.coalesce (bs.map Block.extent) := by
  rw [taken.undo.coalesce_eq, markFree_extents]

/-- The page frame allocator can be called again after the heap wrote to its regions. -/
theorem Kheap.Keeps.ready {h' : Kheap} (keeps : h.Keeps h') (fresh : source.Fresh boot Ready)
    (ready : Ready h.machine h.regions) (writes : h.mem.Writes (InRegions h.regions) h'.mem) :
    Ready h'.machine h'.regions := by
  rw [keeps.regions, keeps.machine]
  exact fresh.write h.machine h.regions h'.mem ready writes

/-- The heap is well formed after a block was taken, even where free neighbours touched. -/
theorem Taken.inv {h' : Kheap} {cs : List Block} (taken : Taken h h' bs cs r b)
    (tiles : Interval.coalesce (bs.map Block.extent) =
      Interval.coalesce (h.regions.map Region.extent))
    (total : h.kheapSize.toNat = Interval.total (h.regions.map Region.extent)) : HeapInv h' cs where
  listed := taken.listed
  tiles := by rw [taken.tiles, tiles, taken.keeps.regions]
  size := by rw [taken.keeps.kheapSize, taken.keeps.regions, total]
  separate := taken.separate

/-- A block is taken from a heap in which all but free neighbours are in order. -/
theorem Taken.allocated {h₀ h' : Kheap} {before cs : List Block} (taken : Taken h h' bs cs r b)
    (listed : Listed h bs) (tiles : Interval.coalesce (bs.map Block.extent) =
      Interval.coalesce (h.regions.map Region.extent))
    (total : h.kheapSize.toNat = Interval.total (h.regions.map Region.extent))
    (fresh : source.Fresh boot Ready) (ready : Ready h.machine h.regions)
    (grown : ∃ more, h.regions = h₀.regions ++ more)
    (sub : ∀ x ∈ before, x ∈ bs) (same : ∀ x ∈ bs, x.free = false → x ∈ before)
    (writes : h₀.mem.Writes (Spared before) h.mem) (large : size.toNat ≤ r.toNat) :
    Allocated Ready h₀ h' before cs size b where
  inv := taken.inv tiles total
  ready := taken.keeps.ready fresh ready (taken.writes.mono fun a byte =>
    listed.inRegions_of_allocatorByte tiles byte)
  regions := by
    rw [taken.keeps.regions]
    exact grown
  used := by
    intro x used
    rw [taken.used x used]
    exact or_congr_left ⟨fun inBs => same x inBs used, sub x⟩
  fresh := fun inBefore => taken.fresh (sub b inBefore)
  taken := taken.taken
  room := Nat.le_trans large taken.room
  writes := writes.trans (taken.writes.mono fun a byte x inX used inside =>
    listed.not_allocatorByte (sub x inX) used inside byte)

/-- A block that served a request is allocated. -/
theorem Served.allocated {h' : Kheap} {cs : List Block} (served : Served boot source Ready h h' bs cs r b)
    (inv : HeapInv h bs) (fresh : source.Fresh boot Ready) (ready : Ready h.machine h.regions)
    (large : size.toNat ≤ r.toNat) : Allocated Ready h h' bs cs size b := by
  cases served with
  | direct searched taken =>
    exact taken.allocated inv.listed inv.tiles inv.size fresh ready
      ⟨[], (List.append_nil _).symm⟩ (fun _ => id)
      (fun _ inList _ => inList) Memory.Writes.refl large
  | extended unfit frames machine obtained h₁ c extension extended searched taken =>
    refine taken.allocated extended.listed extended.tiles extended.size fresh
      extended.ready ?_ (fun x inX => List.mem_append_left _ inX) ?_ ?_ large
    · obtain ⟨region, regions, -⟩ := extended.regions
      exact ⟨[region], regions⟩
    · intro x inX used
      rw [List.mem_append, List.mem_singleton] at inX
      rcases inX with old | rfl
      · exact old
      · exact absurd (used.symm.trans extended.free) Bool.false_ne_true
    · apply extended.writes.mono
      intro a inside x inX used payload
      rcases inside with header | own | outside
      · exact inv.listed.not_headerByte inX payload header
      · have apart := (List.pairwise_append.mp extended.listed.apart).2.2 x inX c (by simp)
        have fits := inv.listed.fits x inX
        exact apart.not_has (fits.extent_has (Or.inr payload)) own
      · exact outside (inv.inRegions_of_payload inX payload)

/-- `kmalloc` allocates, or halts with the panic of the page frame allocator. -/
theorem HeapInv.kmalloc_meets (inv : HeapInv h bs) (fresh : source.Fresh boot Ready)
    (ready : Ready h.machine h.regions) (small : size.toNat ≤ 2 ^ 42) :
    Meets (kmalloc boot source size h)
      (fun out => ∃ cs b, out.1 = b.pointer ∧ Allocated Ready h out.2 bs cs size b)
      (fun e => e = .panic "Out of Memory!") := by
  have rounded := kmallocRound_of_le small
  refine (inv.kmalloc_served fresh ready (by omega)).mono (fun out meets => ?_) fun _ => id
  obtain ⟨cs, b, same, served⟩ := meets
  exact ⟨cs, b, same, served.allocated inv fresh ready rounded.1⟩

/-! ## Writes to a payload -/

/-- Writes to the payload of a block in use keep the heap well formed. -/
theorem HeapInv.write (inv : HeapInv h bs) (inList : b ∈ bs) {m : Memory}
    (writes : h.mem.Writes (fun a => b.payload.Has a.toNat) m) : HeapInv (h.withMem m) bs where
  listed := inv.listed.write writes fun x inX _ own inside =>
    inv.listed.not_headerByte inList inside ⟨x, inX, own⟩
  tiles := inv.tiles
  size := inv.size
  separate := inv.separate

/-- Payloads of different blocks do not overlap. -/
theorem Listed.payload_apart (listed : Listed h bs) (inB : b ∈ bs) (inC : c ∈ bs) (different : b ≠ c)
    {a : UInt64} (inside : b.payload.Has a.toNat) : ¬ c.payload.Has a.toNat := by
  have apart := listed.apart_of_ne inB inC different
  intro inside'
  exact apart.not_has ((listed.fits b inB).extent_has (Or.inr inside))
    ((listed.fits c inC).extent_has (Or.inr inside'))

/-- The first bytes of a payload. -/
theorem Block.Fits.span_le (fits : b.Fits) {n : UInt64} (room : n.toNat ≤ b.size.toNat) {a : UInt64}
    (inside : Span b.pointer n.toNat a) : b.payload.Has a.toNat := by
  rw [← fits.span_payload_iff]
  exact Nat.lt_of_lt_of_le inside room

/-- `kzalloc` allocates zero bytes, or halts with the panic of the page frame allocator. -/
theorem HeapInv.kzalloc_meets (inv : HeapInv h bs) (fresh : source.Fresh boot Ready)
    (ready : Ready h.machine h.regions) (small : size.toNat ≤ 2 ^ 42) :
    Meets (kzalloc boot source size h)
      (fun out => ∃ cs b, out.1 = b.pointer ∧ Allocated Ready h out.2 bs cs size b ∧
        ∀ a, Span out.1 size.toNat a → out.2.mem.byte a = 0)
      (fun e => e = .panic "Out of Memory!") := by
  apply (inv.kmalloc_meets fresh ready small).bind
  rintro ⟨ptr, h'⟩ ⟨cs, b, rfl, allocated⟩
  obtain ⟨inv', ready', regions, used, isFresh, taken, room, writes⟩ := allocated
  have inCs : b ∈ cs := (used b taken).mpr (Or.inr rfl)
  have fits := inv'.listed.fits b inCs
  have zero := (memset_writes h'.mem b.pointer 0 size).mono fun a => fits.span_le room
  refine ⟨cs, b, rfl, ⟨inv'.write inCs zero, ?_, regions, used, isFresh, taken, room, ?_⟩, ?_⟩
  · exact fresh.write _ _ _ ready' (zero.mono fun _ inside => inv'.inRegions_of_payload inCs inside)
  · apply writes.trans (zero.mono fun a inside x inX usedX payload => ?_)
    have different : x ≠ b := by
      rintro rfl
      exact isFresh inX
    exact inv'.listed.payload_apart ((used x usedX).mpr (Or.inl inX)) inCs different payload inside
  · intro a inside
    change (memset h'.mem b.pointer 0 size).byte a = 0
    rw [memset_byte, if_pos inside]

end Symphony
