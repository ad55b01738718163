import Symphony.Verif.Merges

/-!
# Release of a block

`kfree` on the block list: the block becomes free and is merged with free neighbours that
touch it. The blocks in use stay, the same bytes are covered, and no two free neighbours
touch afterwards. The headers of released blocks keep their flag while blocks only merge,
so a second release of the same pointer is recognised.
-/

namespace Symphony

variable {h : Kheap} {bs before after : List Block} {b c : Block}

instance : Std.Symm Block.Apart := ⟨fun _ _ => Or.symm⟩

/-- Different blocks of a list do not overlap. -/
theorem Listed.apart_of_ne (listed : Listed h bs) (inB : b ∈ bs) (inC : c ∈ bs) (different : b ≠ c) :
    b.Apart c :=
  listed.apart.forall inB inC different

/-- The payload of a block in use holds no byte of the allocator. -/
theorem Listed.not_allocatorByte (listed : Listed h bs) (inList : b ∈ bs) (used : b.free = false)
    {a : UInt64} (inside : b.payload.Has a.toNat) : ¬ AllocatorByte bs a := by
  intro byte
  obtain ⟨x, inX, own⟩ := byte
  rw [Block.has_payload_iff] at inside
  by_cases same : x = b
  · subst same
    rcases own with header | ⟨free, -⟩
    · have span := ((listed.fits x inX).headerSpan_iff a).mp header
      omega
    · rw [used] at free
      cases free
  · have apart := listed.apart_of_ne inX inList same
    rw [Block.apart_iff] at apart
    rcases own with header | ⟨-, payload⟩
    · have span := ((listed.fits x inX).headerSpan_iff a).mp header
      omega
    · rw [Block.has_payload_iff] at payload
      omega

/-! ## Headers of released blocks -/

/-- The header of a free block, or a header inside a free block whose flag still says so. -/
def Stale (m : Memory) (bs : List Block) (bh : UInt64) : Prop :=
  ∃ y ∈ bs, y.free = true ∧ (bh = y.addr ∨ y.addr.toNat + 32 ≤ bh.toNat ∧
    bh.toNat + 32 ≤ y.extent.stop ∧ m.blockFree bh = true)

/-- The flag of such a header. -/
theorem Stale.blockFree {bh : UInt64} (listed : Listed h bs) (stale : Stale h.mem bs bh) :
    h.mem.blockFree bh = true := by
  obtain ⟨y, inY, free, place⟩ := stale
  cases place with
  | inl same =>
    obtain ⟨before, after, rfl⟩ := List.append_of_mem inY
    rw [same, listed.fields.2.1, free]
  | inr inner => exact inner.2.2

/-- The payload of a block holds no byte of a header. -/
theorem Listed.not_headerByte (listed : Listed h bs) (inList : b ∈ bs) {a : UInt64}
    (inside : b.payload.Has a.toNat) : ¬ HeaderByte bs a := by
  intro byte
  obtain ⟨x, inX, header⟩ := byte
  rw [Block.has_payload_iff] at inside
  have span := ((listed.fits x inX).headerSpan_iff a).mp header
  by_cases same : x = b
  · rw [same] at span
    omega
  · have apart := listed.apart_of_ne inX inList same
    rw [Block.apart_iff] at apart
    omega

/-- A flag inside a free block stays where its payload is not written. -/
theorem flag_kept {m m' : Memory} {area : UInt64 → Prop} (writes : m.Writes area m') (fits : b.Fits)
    {bh : UInt64} (lower : b.addr.toNat + 32 ≤ bh.toNat) (upper : bh.toNat + 32 ≤ b.extent.stop)
    (spared : ∀ a : UInt64, b.payload.Has a.toNat → ¬ area a) : m'.blockFree bh = m.blockFree bh := by
  rw [Block.fits_iff] at fits
  change bh.toNat + 32 ≤ b.addr.toNat + (32 + b.size.toNat) at upper
  have place : (bh + 8).toNat = bh.toNat + 8 := toNat_add_of_fits (by change _ + 8 < _; omega)
  have same : m'.byte (bh + 8) = m.byte (bh + 8) := by
    apply writes.byte_eq
    apply spared
    rw [place, Block.has_payload_iff]
    omega
  rw [Memory.blockFree, same, Memory.blockFree]

/-- Stale headers stay stale where free payloads are not written. -/
theorem Stale.write {m m' : Memory} {area : UInt64 → Prop} {bh : UInt64} (stale : Stale m bs bh)
    (writes : m.Writes area m') (fits : ∀ b ∈ bs, b.Fits)
    (spared : ∀ b ∈ bs, b.free = true → ∀ a : UInt64, b.payload.Has a.toNat → ¬ area a) :
    Stale m' bs bh := by
  obtain ⟨y, inY, free, place⟩ := stale
  refine ⟨y, inY, free, place.imp id fun inner => ⟨inner.1, inner.2.1, ?_⟩⟩
  rw [flag_kept writes (fits y inY) inner.1 inner.2.1 (spared y inY free)]
  exact inner.2.2

/-- Stale headers stay stale while blocks are merged. -/
theorem Stale.merge {h' : Kheap} {cs : List Block} {bh : UInt64} (stale : Stale h.mem bs bh)
    (listed : Listed h bs) (merges : Merges bs cs) (listed' : Listed h' cs)
    (writes : h.mem.Writes (HeaderByte cs) h'.mem) : Stale h'.mem cs bh := by
  have spared : ∀ b ∈ cs, b.free = true → ∀ a : UInt64, b.payload.Has a.toNat → ¬ HeaderByte cs a :=
    fun b inList _ a inside => listed'.not_headerByte inList inside
  suffices moved : Stale h.mem cs bh from moved.write writes listed'.fits spared
  cases merges with
  | none => exact stale
  | two before after b c free freeC touch fits fitsC =>
    have size := fits.merged fitsC touch
    have natTouch : b.addr.toNat + (32 + b.size.toNat) = c.addr.toNat := touch
    have stop : (b.merged c).extent.stop = c.addr.toNat + (32 + c.size.toNat) := by
      change b.addr.toNat + (32 + (b.merged c).size.toNat) = _
      omega
    have inMerged : b.merged c ∈ before ++ b.merged c :: after := by simp
    have flagC : h.mem.blockFree c.addr = true := by
      rw [listed.second.fields.2.1, freeC]
    obtain ⟨y, inY, freeY, place⟩ := stale
    rw [List.mem_append, List.mem_cons, List.mem_cons] at inY
    rcases inY with inBefore | rfl | rfl | inAfter
    · exact ⟨y, by simp [inBefore], freeY, place⟩
    · refine ⟨_, inMerged, free, place.imp id fun inner => ⟨inner.1, ?_, inner.2.2⟩⟩
      have upper : bh.toNat + 32 ≤ y.addr.toNat + (32 + y.size.toNat) := inner.2.1
      rw [stop]
      omega
    · refine ⟨_, inMerged, free, Or.inr ?_⟩
      rw [stop]
      change b.addr.toNat + 32 ≤ bh.toNat ∧ _
      rcases place with rfl | ⟨lower, upper, flag⟩
      · exact ⟨by omega, by omega, flagC⟩
      · change bh.toNat + 32 ≤ y.addr.toNat + (32 + y.size.toNat) at upper
        exact ⟨by omega, by omega, flag⟩
    · exact ⟨y, by simp [inAfter], freeY, place⟩

/-- Headers of free blocks stay stale when more blocks are free. -/
theorem Stale.mono {m : Memory} {cs : List Block} {bh : UInt64} (stale : Stale m bs bh)
    (grow : ∀ y ∈ bs, y.free = true → y ∈ cs) : Stale m cs bh := by
  obtain ⟨y, inY, free, place⟩ := stale
  exact ⟨y, grow y inY free, free, place⟩

/-- Stale headers stay stale while a block in use is released and poisoned. -/
theorem Stale.poison {m : Memory} {bh : UInt64} (stale : Stale h.mem (before ++ b :: after) bh)
    (listed : Listed h (before ++ b :: after)) (used : b.free = false)
    (area : h.mem.Writes (fun a => HeaderSpan b.addr a ∨ b.payload.Has a.toNat) m) :
    Stale m (before ++ { b with free := true } :: after) bh := by
  have fits := listed.fits b (by simp)
  have surrounds := pairwise_mid listed.apart
  have others : Stale h.mem (before ++ after) bh := by
    apply stale.mono
    intro y inY freeY
    rw [List.mem_append, List.mem_cons] at inY
    rcases inY with inBefore | rfl | inAfter
    · exact List.mem_append_left _ inBefore
    · exact absurd (used.symm.trans freeY) Bool.false_ne_true
    · exact List.mem_append_right _ inAfter
  apply (others.write area _ _).mono
  · intro y inY _
    simp only [List.mem_append, List.mem_cons] at inY ⊢
    exact inY.imp id Or.inr
  · intro y inY
    apply listed.fits
    simp only [List.mem_append, List.mem_cons] at inY ⊢
    exact inY.imp id Or.inr
  · intro y inY freeY a inside own
    have apart : y.Apart b := by
      cases List.mem_append.mp inY with
      | inl inBefore => exact surrounds.1 y inBefore
      | inr inAfter => exact (surrounds.2.1 y inAfter).symm
    rw [Block.apart_iff] at apart
    rw [Block.has_payload_iff] at inside
    rw [fits.headerSpan_iff, Block.has_payload_iff] at own
    omega

/-! ## The two merges -/

/-- Two merged blocks end where the second one did. -/
theorem Block.Fits.mergeable_of_merged {y : Block} (fits : b.Fits) (fitsC : c.Fits)
    (freeC : c.free = true) (touch : b.extent.stop = c.extent.start)
    (mergeable : (b.merged c).Mergeable y) : c.Mergeable y := by
  rw [Block.mergeable_iff] at mergeable ⊢
  have natTouch : b.addr.toNat + (32 + b.size.toNat) = c.addr.toNat := touch
  have size := fits.merged fitsC touch
  have stop : b.addr.toNat + (32 + (b.merged c).size.toNat) = y.addr.toNat := mergeable.2.2
  exact ⟨freeC, mergeable.2.1, by omega⟩

/-- After the merge with the successor, a free block still starts where it did, and it does
not touch a free block behind it. -/
theorem Listed.mergedNext (listed : Listed h (before ++ b :: after)) (free : b.free = true)
    (separate : Separate after) :
    ∃ d rest, d.addr = b.addr ∧ d.free = true ∧
      Merges (before ++ b :: after) (before ++ d :: rest) ∧
      (Separate (d :: rest)) ∧
      Listed (kfreeMergeNext b.addr h) (before ++ d :: rest) ∧
      h.mem.Writes (HeaderByte (before ++ d :: rest)) (kfreeMergeNext b.addr h).mem ∧
      h.Keeps (kfreeMergeNext b.addr h) := by
  rcases listed.mergeNext with ⟨same, alone⟩ | ⟨c, rest, rfl, freeC, touch, merged, writes, keeps⟩
  · rw [same]
    refine ⟨b, after, rfl, free, Merges.none _, ?_, listed, Memory.Writes.refl,
      Kheap.Keeps.withMem h h.mem⟩
    apply List.isChain_cons.mpr
    refine ⟨fun y first touch => ?_, separate⟩
    cases after with
    | nil => cases first
    | cons c rest =>
      cases first
      exact alone y rest rfl touch.2
  · have fits := listed.fits b (by simp)
    have fitsC := listed.fits c (by simp)
    refine ⟨b.merged c, rest, rfl, free, Merges.two before rest b c free freeC touch fits fitsC, ?_,
      merged, writes, keeps⟩
    exact chain_head separate fun y => fits.mergeable_of_merged fitsC freeC touch

/-- After the merge with the predecessor no two free neighbours touch. -/
theorem Listed.mergedPrev (listed : Listed h (before ++ c :: after)) (free : c.free = true)
    (front : Separate before)
    (behind : Separate (c :: after)) :
    ∃ cs, Merges (before ++ c :: after) cs ∧ (Separate cs) ∧
      Listed (kfreeMergePrev c.addr h) cs ∧
      h.mem.Writes (HeaderByte cs) (kfreeMergePrev c.addr h).mem ∧
      h.Keeps (kfreeMergePrev c.addr h) := by
  rcases listed.mergePrev with ⟨same, alone⟩ | ⟨b, first, rfl, freeB, touch, merged, writes, keeps⟩
  · rw [same]
    refine ⟨_, Merges.none _, ?_, listed, Memory.Writes.refl, Kheap.Keeps.withMem h h.mem⟩
    apply List.isChain_append.mpr
    refine ⟨front, behind, fun b last d first touch => ?_⟩
    cases first
    obtain ⟨others, rfl⟩ := List.getLast?_eq_some_iff.mp last
    exact alone b others rfl ⟨touch.1, touch.2.2⟩
  · have fits := listed.fits b (by simp)
    have fitsC := listed.fits c (by simp)
    have whole : first ++ [b] ++ c :: after = first ++ b :: c :: after := by simp
    rw [whole]
    refine ⟨_, Merges.two first after b c freeB free touch fits fitsC, ?_, merged, writes, keeps⟩
    apply List.isChain_split.mpr
    constructor
    · exact chain_last front fun y mergeable => mergeable
    · exact chain_head behind fun y => fits.mergeable_of_merged fitsC free touch

/-! ## `kfree` -/

/-- What the release of a block guarantees. -/
structure Release (h h' : Kheap) (bs cs : List Block) (b : Block) : Prop where
  /-- The heap is well formed again. -/
  inv : HeapInv h' cs
  /-- The page regions stay. -/
  keeps : h.Keeps h'
  /-- The block is marked free and merged with free neighbours that touch it. -/
  merges : ∃ ds, Merges (Block.markFree [b.pointer] bs) ds ∧ Merges ds cs
  /-- All other blocks in use stay. -/
  used : ∀ x : Block, x.free = false → (x ∈ cs ↔ x ∈ bs ∧ x ≠ b)
  /-- Only headers and the payloads of free blocks are written. -/
  writes : h.mem.Writes (AllocatorByte cs) h'.mem
  /-- Headers of blocks released before stay recognisable. -/
  stale : ∀ bh, Stale h.mem bs bh → Stale h'.mem cs bh
  /-- The header of the released block is recognisable. -/
  own : Stale h'.mem cs b.addr

/-- The block behind a pointer that `kmalloc` returned. -/
theorem Block.pointer_sub (b : Block) : b.pointer - headerSize = b.addr := by
  unfold pointer
  grind

/-- Pointer of a proper block as a number. -/
theorem Block.Fits.pointer_toNat (fits : b.Fits) : b.pointer.toNat = b.addr.toNat + 32 := by
  rw [Block.fits_iff] at fits
  exact toNat_add_of_fits (by change _ + 32 < _; omega)

/-- No pointer to a block is `NULL`. -/
theorem Block.Fits.pointer_ne_zero (fits : b.Fits) : b.pointer ≠ 0 := by
  intro null
  have place := fits.pointer_toNat
  rw [null] at place
  cases place

/-- The payload of a block as a span of addresses. -/
theorem Block.Fits.span_payload_iff (fits : b.Fits) (a : UInt64) :
    Span b.pointer b.size.toNat a ↔ b.payload.Has a.toNat := by
  have place := fits.pointer_toNat
  rw [Block.fits_iff] at fits
  rw [span_iff (by omega), place, Block.has_payload_iff]

/-- `kfree` marks a block in use as free, poisons its payload and goes on to merge it. -/
theorem Listed.poison (listed : Listed h (before ++ b :: after)) (used : b.free = false) :
    ∃ m, kfree b.pointer h = kfreeMergePrev b.addr (kfreeMergeNext b.addr (h.withMem m)) ∧
      Listed (h.withMem m) (before ++ { b with free := true } :: after) ∧
      h.mem.Writes (fun a => HeaderSpan b.addr a ∨ b.payload.Has a.toNat) m := by
  have fits := listed.fits b (by simp)
  have flag := listed.fields.2.1
  unfold Symphony.kfree
  rw [if_neg fits.pointer_ne_zero]
  simp only [b.pointer_sub, flag, used, Bool.false_eq_true, ↓reduceIte]
  obtain ⟨m₁, e₁⟩ : ∃ m₁, m₁ = h.mem.setBlockFree b.addr true := ⟨_, rfl⟩
  have listed₁ := listed.setFree true
  have writes₁ := h.mem.setBlockFree_writes b.addr true
  rw [← e₁] at listed₁ writes₁
  have size₁ : m₁.blockSize b.addr = b.size := listed₁.fields.1
  have payload := memset_writes m₁ b.pointer 0xff b.size
  simp only [← e₁, size₁]
  refine ⟨memset m₁ b.pointer 0xff b.size, rfl, listed₁.write payload ?_, ?_⟩
  · intro x inX a own inside
    rw [fits.span_payload_iff] at inside
    have inD : { b with free := true } ∈ before ++ { b with free := true } :: after := by simp
    exact listed₁.not_headerByte inD inside ⟨x, inX, own⟩
  · exact (writes₁.mono fun _ => Or.inl).trans (payload.mono fun a inside =>
      Or.inr ((fits.span_payload_iff a).mp inside))

/-- The list after the marking of one block. -/
theorem Listed.markFree_one (listed : Listed h (before ++ b :: after)) :
    Block.markFree [b.pointer] (before ++ b :: after) = before ++ { b with free := true } :: after := by
  have surrounds := pairwise_mid listed.apart
  have other (x : Block) (around : x ∈ before ∨ x ∈ after) :
      (⟨x.addr, x.size, x.free || decide (x.pointer ∈ [b.pointer])⟩ : Block) = x := by
    have apart : x.Apart b := by
      cases around with
      | inl inBefore => exact surrounds.1 x inBefore
      | inr inAfter => exact (surrounds.2.1 x inAfter).symm
    have different : x.pointer ≠ b.pointer := by
      intro same
      have sameAddr : x.addr = b.addr := by rw [← x.pointer_sub, same, b.pointer_sub]
      rw [Block.apart_iff, sameAddr] at apart
      omega
    simp [different]
  have front : Block.markFree [b.pointer] before = before :=
    (List.map_congr_left fun x inX => other x (Or.inl inX)).trans before.map_id'
  have behind : Block.markFree [b.pointer] after = after :=
    (List.map_congr_left fun x inX => other x (Or.inr inX)).trans after.map_id'
  unfold Block.markFree at front behind ⊢
  rw [List.map_append, List.map_cons, front, behind]
  simp

/-- `kfree` releases a block in use. -/
theorem HeapInv.kfree (inv : HeapInv h bs) (inList : b ∈ bs) (used : b.free = false) :
    ∃ cs, Release h (kfree b.pointer h) bs cs b := by
  obtain ⟨before, after, rfl⟩ := List.append_of_mem inList
  have listed := inv.listed
  have fits := listed.fits b inList
  have mark := listed.markFree_one
  obtain ⟨m, run, poisoned, area⟩ := listed.poison used
  rw [run]
  obtain ⟨d, isD⟩ : ∃ d, d = { b with free := true } := ⟨_, rfl⟩
  rw [← isD] at poisoned mark
  have inD : d ∈ before ++ d :: after := by simp
  have sameAddr : d.addr = b.addr := by rw [isD]
  have samePayload : d.payload = b.payload := by rw [isD]; rfl
  have freeD : d.free = true := by rw [isD]
  -- The neighbours are merged.
  have chain := List.isChain_split.mp inv.separate
  obtain ⟨e, rest, sameE, freeE, merges, behind, listed₃, writes₃, keeps₃⟩ :=
    poisoned.mergedNext freeD chain.2.tail
  rw [sameAddr] at sameE listed₃ writes₃ keeps₃
  have front : Separate before := (List.isChain_append.mp chain.1).1
  obtain ⟨cs, merges', separate, listed₄, writes₄, keeps₄⟩ := listed₃.mergedPrev freeE front behind
  rw [sameE] at listed₄ writes₄ keeps₄
  have keeps : h.Keeps (kfreeMergePrev b.addr (kfreeMergeNext b.addr (h.withMem m))) :=
    ((Kheap.Keeps.withMem h m).trans keeps₃).trans keeps₄
  refine ⟨cs, ⟨listed₄, ?_, ?_, separate⟩, keeps, ⟨_, mark ▸ merges, merges'⟩, ?_, ?_, ?_, ?_⟩
  · rw [keeps.regions, merges'.coalesce_eq, merges.coalesce_eq, ← inv.tiles, ← mark,
      markFree_extents]
  · rw [keeps.kheapSize, keeps.regions]
    exact inv.size
  · intro x usedX
    rw [merges'.mem_used usedX, merges.mem_used usedX]
    have notD : x ≠ d := by
      rintro rfl
      exact absurd (usedX.symm.trans freeD) Bool.false_ne_true
    have surrounds := pairwise_mid listed.apart
    have notB (around : x ∈ before ∨ x ∈ after) : x ≠ b := by
      rintro rfl
      cases around with
      | inl inBefore => exact x.not_apart_self (surrounds.1 x inBefore)
      | inr inAfter => exact x.not_apart_self (surrounds.2.1 x inAfter)
    simp only [List.mem_append, List.mem_cons, notD, false_or]
    constructor
    · intro around
      exact ⟨around.imp id Or.inr, notB around⟩
    · rintro ⟨inBefore | rfl | inAfter, different⟩
      · exact Or.inl inBefore
      · exact absurd rfl different
      · exact Or.inr inAfter
  · have first : h.mem.Writes (AllocatorByte (before ++ d :: after)) m := by
      apply area.mono
      intro a inside
      rw [← sameAddr, ← samePayload] at inside
      exact ⟨d, inD, inside.imp id fun payload => ⟨freeD, payload⟩⟩
    have second := first.mono fun a byte => merges'.allocatorByte (merges.allocatorByte byte)
    have third := writes₃.mono fun a byte => merges'.allocatorByte byte.allocatorByte
    exact (second.trans third).trans (writes₄.mono fun a byte => byte.allocatorByte)
  · intro bh stale
    have kept := stale.poison listed used area
    rw [← isD] at kept
    have next := kept.merge (h := h.withMem m) poisoned merges listed₃ writes₃
    exact next.merge listed₃ merges' listed₄ writes₄
  · have marked : Stale m (before ++ d :: after) b.addr := ⟨d, inD, freeD, Or.inl sameAddr.symm⟩
    have next := marked.merge (h := h.withMem m) poisoned merges listed₃ writes₃
    exact next.merge listed₃ merges' listed₄ writes₄

/-- `kfree` of `NULL` does nothing. -/
theorem kfree_null (h : Kheap) : kfree 0 h = h := by
  rw [kfree, if_pos rfl]

/-- `kfree` of a pointer that was released does nothing. -/
theorem Listed.kfree_stale (listed : Listed h bs) {ptr : UInt64}
    (stale : Stale h.mem bs (ptr - headerSize)) : kfree ptr h = h := by
  unfold kfree
  by_cases null : ptr = 0
  · rw [if_pos null]
  · rw [if_neg null]
    simp only [stale.blockFree listed, ↓reduceIte]

end Symphony
