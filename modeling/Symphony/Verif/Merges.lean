import Symphony.Verif.HeapList

/-!
# Merged block lists

Two free neighbours that touch become one block. `Merges` is such a step on block lists; it
keeps the blocks in use and the bytes that are covered. `mergeFree` merges all of them: no
step changes its result, and it leaves a list alone in which no two free neighbours touch.
Marking blocks as free commutes with such steps, so the order of releases does not matter.
-/

namespace Symphony

variable {bs cs before after : List Block} {b c : Block}

/-! ## Neighbours that touch -/

/-- No free block touches a free successor. -/
abbrev Separate (bs : List Block) : Prop := bs.IsChain fun b c => ¬ b.Mergeable c

/-- A chain of blocks may start with another block that touches no more than the first. -/
theorem chain_head {x x' : Block} {xs : List Block}
    (chain : Separate (x :: xs))
    (less : ∀ y : Block, x'.Mergeable y → x.Mergeable y) :
    Separate (x' :: xs) := by
  unfold Separate at chain ⊢
  rw [List.isChain_cons] at chain ⊢
  exact ⟨fun y first touch => chain.1 y first (less y touch), chain.2⟩

/-- A chain of blocks may end with another block that touches no more than the last. -/
theorem chain_last {x x' : Block} {xs : List Block}
    (chain : Separate (xs ++ [x]))
    (less : ∀ y : Block, y.Mergeable x' → y.Mergeable x) :
    Separate (xs ++ [x']) := by
  unfold Separate at chain ⊢
  rw [List.isChain_append] at chain ⊢
  refine ⟨chain.1, List.isChain_singleton x', fun y last z first touch => ?_⟩
  have isX' : x' = z := Option.some.inj first
  rw [← isX'] at touch
  exact chain.2.2 y last x rfl (less y touch)

/-! ## Steps on block lists -/

/-- Two free neighbours that touch become one. -/
inductive Merges : List Block → List Block → Prop
  | none (bs : List Block) : Merges bs bs
  | two (before after : List Block) (b c : Block) (free : b.free = true) (freeC : c.free = true)
    (touch : b.extent.stop = c.extent.start) (fits : b.Fits) (fitsC : c.Fits) :
    Merges (before ++ b :: c :: after) (before ++ b.merged c :: after)

namespace Merges

/-- Merging covers the same bytes. -/
theorem coalesce_eq (merges : Merges bs cs) :
    Interval.coalesce (cs.map Block.extent) = Interval.coalesce (bs.map Block.extent) := by
  cases merges with
  | none => rfl
  | two before after b c free freeC touch fits fitsC =>
    have size := fits.merged fitsC touch
    have split := Interval.coalesce_split (before.map Block.extent) (after.map Block.extent)
      b.addr.toNat (32 + b.size.toNat) (32 + c.size.toNat)
    have second : (⟨b.addr.toNat + (32 + b.size.toNat), 32 + c.size.toNat⟩ : Interval) = c.extent := by
      change b.addr.toNat + (32 + b.size.toNat) = c.addr.toNat at touch
      rw [touch]
      rfl
    have whole : (⟨b.addr.toNat, 32 + b.size.toNat + (32 + c.size.toNat)⟩ : Interval) =
        (b.merged c).extent := by
      rw [Block.extent, size]
      exact congrArg (Interval.mk b.addr.toNat) (by omega)
    rw [second, whole] at split
    simp only [List.map_append, List.map_cons]
    exact split.symm

/-- Merging leaves the blocks in use. -/
theorem mem_used (merges : Merges bs cs) {x : Block} (used : x.free = false) : x ∈ cs ↔ x ∈ bs := by
  cases merges with
  | none => exact Iff.rfl
  | two before after b c free freeC touch fits fitsC =>
    have notMerged : x ≠ b.merged c := by
      rintro rfl
      exact absurd (used.symm.trans free) Bool.false_ne_true
    have notFirst : x ≠ b := by
      rintro rfl
      exact absurd (used.symm.trans free) Bool.false_ne_true
    have notSecond : x ≠ c := by
      rintro rfl
      exact absurd (used.symm.trans freeC) Bool.false_ne_true
    simp only [List.mem_append, List.mem_cons, notMerged, notFirst, notSecond, false_or]

end Merges

/-- A block overlaps itself. -/
theorem Block.not_apart_self (b : Block) : ¬ b.Apart b := by
  rw [apart_iff]
  omega

/-- Bytes of headers belong to the allocator. -/
theorem HeaderByte.allocatorByte {a : UInt64} (byte : HeaderByte bs a) : AllocatorByte bs a := by
  obtain ⟨b, inList, inside⟩ := byte
  exact ⟨b, inList, Or.inl inside⟩

/-- Merging keeps the bytes of the allocator. -/
theorem Merges.allocatorByte (merges : Merges bs cs) {a : UInt64}
    (byte : AllocatorByte bs a) : AllocatorByte cs a := by
  cases merges with
  | none => exact byte
  | two before after b c free freeC touch fits fitsC =>
    have size := fits.merged fitsC touch
    have natTouch : b.addr.toNat + (32 + b.size.toNat) = c.addr.toNat := touch
    have inMerged : b.merged c ∈ before ++ b.merged c :: after := by simp
    have inPayload (lower : b.addr.toNat + 32 ≤ a.toNat)
        (upper : a.toNat < c.addr.toNat + 32 + c.size.toNat) :
        AllocatorByte (before ++ b.merged c :: after) a := by
      refine ⟨_, inMerged, Or.inr ⟨free, ?_⟩⟩
      rw [Block.has_payload_iff, size]
      change b.addr.toNat + 32 ≤ _ ∧ _ < b.addr.toNat + 32 + _
      omega
    obtain ⟨y, inY, inside⟩ := byte
    rw [List.mem_append, List.mem_cons, List.mem_cons] at inY
    rcases inY with inBefore | rfl | rfl | inAfter
    · exact ⟨y, by simp [inBefore], inside⟩
    · rcases inside with header | ⟨-, payload⟩
      · exact ⟨_, inMerged, Or.inl header⟩
      · rw [Block.has_payload_iff] at payload
        apply inPayload <;> omega
    · rcases inside with header | ⟨-, payload⟩
      · rw [show Span y.addr 32 a ↔ _ from fitsC.headerSpan_iff a] at header
        apply inPayload <;> omega
      · rw [Block.has_payload_iff] at payload
        apply inPayload <;> omega
    · exact ⟨y, by simp [inAfter], inside⟩

/-! ## All neighbours are merged -/

/-- A list without free neighbours that touch is merged already. -/
theorem mergeFree_of_separate (separate : Separate bs) : Block.mergeFree bs = bs := by
  induction bs with
  | nil => rfl
  | cons b bs ih =>
    rw [Block.mergeFree, ih separate.tail]
    cases bs with
    | nil => rfl
    | cons c rest => rw [Block.joinFree, if_neg separate.rel]

/-- Two neighbours may be merged before what follows. -/
theorem joinFree_joinFree (mergeable : b.Mergeable c) (fits : b.Fits) (fitsC : c.Fits)
    (rest : List Block) :
    b.joinFree (c.joinFree rest) = (b.merged c).joinFree rest := by
  have size := fits.merged fitsC mergeable.2.2
  have touch : b.addr.toNat + (32 + b.size.toNat) = c.addr.toNat := mergeable.2.2
  cases rest with
  | nil => simp only [Block.joinFree, if_pos mergeable]
  | cons d rest =>
    have same : (b.merged c).Mergeable d ↔ c.Mergeable d := by
      have stop : (b.merged c).extent.stop = c.extent.stop := by
        change b.addr.toNat + (32 + (b.merged c).size.toNat) = c.addr.toNat + (32 + c.size.toNat)
        omega
      unfold Block.Mergeable
      rw [stop, mergeable.2.1]
      exact and_congr_left fun _ => iff_true_intro mergeable.1 |>.trans (iff_true_intro rfl).symm
    by_cases more : c.Mergeable d
    · have next : b.Mergeable (c.merged d) := mergeable
      have assoc : b.merged (c.merged d) = (b.merged c).merged d := by
        simp only [Block.merged, Block.mk.injEq, true_and, and_true]
        grind
      rw [Block.joinFree, if_pos more, Block.joinFree, if_pos next, Block.joinFree,
        if_pos (same.mpr more), assoc]
    · rw [Block.joinFree, if_neg more, Block.joinFree, if_pos mergeable, Block.joinFree,
        if_neg fun touches => more (same.mp touches)]

/-- A merge does not change the merged list. -/
theorem Merges.mergeFree_eq (merges : Merges bs cs) : Block.mergeFree cs = Block.mergeFree bs := by
  cases merges with
  | none => rfl
  | two before after b c free freeC touch fits fitsC =>
    induction before with
    | nil => exact (joinFree_joinFree ⟨free, freeC, touch⟩ fits fitsC (Block.mergeFree after)).symm
    | cons x before ih => exact congrArg x.joinFree ih

/-- A block that is appended to a merged list is merged with its last block only. -/
theorem mergeFree_concat (separate : Separate (before ++ [b])) (fits : b.Fits) (fitsC : c.Fits) :
    Block.mergeFree (before ++ [b, c]) =
      if b.Mergeable c then before ++ [b.merged c] else before ++ [b, c] := by
  by_cases mergeable : b.Mergeable c
  · have merges := Merges.two before [] b c mergeable.1 mergeable.2.1 mergeable.2.2 fits fitsC
    have merged : Separate (before ++ [b.merged c]) := chain_last separate fun y touch => touch
    rw [if_pos mergeable, ← merges.mergeFree_eq, mergeFree_of_separate merged]
  · rw [if_neg mergeable]
    apply mergeFree_of_separate
    exact List.isChain_split.mpr ⟨separate, List.isChain_pair.mpr mergeable⟩

/-! ## Blocks are marked free -/

/-- Marking keeps the extents. -/
theorem markFree_extents (ptrs : List UInt64) (bs : List Block) :
    (Block.markFree ptrs bs).map Block.extent = bs.map Block.extent := by
  rw [Block.markFree, List.map_map]
  rfl

/-- Marking twice marks the blocks of both lists. -/
theorem markFree_markFree (ptrs more : List UInt64) (bs : List Block) :
    Block.markFree more (Block.markFree ptrs bs) = Block.markFree (ptrs ++ more) bs := by
  unfold Block.markFree
  rw [List.map_map]
  apply List.map_congr_left
  intro b _
  change (⟨b.addr, b.size, (b.free || decide (b.pointer ∈ ptrs)) || decide (b.pointer ∈ more)⟩ :
    Block) = ⟨b.addr, b.size, b.free || decide (b.pointer ∈ ptrs ++ more)⟩
  simp [Bool.or_assoc]

/-- Only membership of the pointers matters. -/
theorem markFree_congr {ptrs more : List UInt64} (same : ∀ p, p ∈ ptrs ↔ p ∈ more)
    (bs : List Block) : Block.markFree ptrs bs = Block.markFree more bs := by
  unfold Block.markFree
  simp only [same]

/-- Nothing to mark. -/
theorem markFree_nil (bs : List Block) : Block.markFree [] bs = bs := by
  simp [Block.markFree]

/-- Marking commutes with a merge. -/
theorem Merges.markFree (merges : Merges bs cs) (ptrs : List UInt64) :
    Merges (Block.markFree ptrs bs) (Block.markFree ptrs cs) := by
  cases merges with
  | none => exact Merges.none _
  | two before after b c free freeC touch fits fitsC =>
    have two := Merges.two (Block.markFree ptrs before) (Block.markFree ptrs after) b c free freeC
      touch fits fitsC
    have markB : { b with free := b.free || decide (b.pointer ∈ ptrs) } = b := by
      rw [free, Bool.true_or, ← free]
    have markC : { c with free := c.free || decide (c.pointer ∈ ptrs) } = c := by
      rw [freeC, Bool.true_or, ← freeC]
    have markBoth : { b.merged c with
        free := (b.merged c).free || decide ((b.merged c).pointer ∈ ptrs) } = b.merged c := by
      have both : (b.merged c).free = true := free
      rw [both, Bool.true_or, ← both]
    unfold Block.markFree at two ⊢
    simp only [List.map_append, List.map_cons, markB, markC, markBoth]
    exact two

end Symphony
