import Symphony.Verif.HeapSafety

/-!
# The order of releases

A release marks a block free and merges it with free neighbours. Marking commutes with
merging, so the list after any sequence of releases is the list before with the released
blocks marked free and all free neighbours merged, and it does not depend on the order or
on repetitions. A release right after an allocation is such a sequence, too: it restores
the list, up to a region that was appended.
-/

namespace Symphony

variable {boot : Boot} {source : PageSource} {Ready : Machine → List Region → Prop}
variable {machine : Machine} {h h' : Kheap} {bs cs : List Block} {b c : Block} {s : Session}

/-- Two heaps hold one block list: the same headers with the same links, between the same
ends. -/
structure SameList (h h' : Kheap) (bs : List Block) : Prop where
  /-- The list of the first. -/
  first : Listed h bs
  /-- The list of the second. -/
  second : Listed h' bs
  /-- The fields of the headers. -/
  header : ∀ b ∈ bs, h.mem.header b.addr = h'.mem.header b.addr
  /-- The start of the list. -/
  blockListStart : h.blockListStart = h'.blockListStart
  /-- The end of the list. -/
  blockListEnd : h.blockListEnd = h'.blockListEnd

/-- A block list determines its headers and its ends. -/
theorem Listed.same (first : Listed h bs) (second : Listed h' bs) : SameList h h' bs where
  first := first
  second := second
  header := by
    intro b inList
    obtain ⟨before, after, rfl⟩ := List.append_of_mem inList
    rw [first.header, second.header]
  blockListStart := by rw [first.start, second.start]
  blockListEnd := by rw [first.last, second.last]

/-- The list after a release. -/
theorem Release.list_eq (release : Release h h' bs cs b) :
    cs = Block.mergeFree (Block.markFree [b.pointer] bs) := by
  obtain ⟨ds, first, second⟩ := release.merges
  rw [← first.mergeFree_eq, ← second.mergeFree_eq, mergeFree_of_separate release.inv.separate]

/-! ## Sequences of releases -/

/-- The heap after a sequence of releases. -/
def kfreeAll (ptrs : List UInt64) (h : Kheap) : Kheap := ptrs.foldl (fun h ptr => kfree ptr h) h

/-- State of a sequence of releases: the pointers released so far, the heap and its list. -/
structure Releasing (bs : List Block) (done : List UInt64) (h : Kheap) (cs : List Block) : Prop where
  /-- The heap is well formed. -/
  inv : HeapInv h cs
  /-- The list is the first one with blocks marked and merged. -/
  merges : Relation.ReflTransGen Merges (Block.markFree done bs) cs
  /-- The blocks in use. -/
  used : ∀ x : Block, x.free = false → (x ∈ cs ↔ x ∈ bs ∧ x.pointer ∉ done)
  /-- Released pointers are recognised. -/
  stale : ∀ ptr ∈ done, Stale h.mem cs (ptr - headerSize)

/-- Merges do not change the merged list. -/
theorem mergeFree_of_merges (merges : Relation.ReflTransGen Merges bs cs) :
    Block.mergeFree cs = Block.mergeFree bs := by
  induction merges with
  | refl => rfl
  | tail _ last ih => rw [last.mergeFree_eq, ih]

/-- Marking commutes with merges. -/
theorem markFree_of_merges (merges : Relation.ReflTransGen Merges bs cs) (ptrs : List UInt64) :
    Relation.ReflTransGen Merges (Block.markFree ptrs bs) (Block.markFree ptrs cs) := by
  induction merges with
  | refl => exact Relation.ReflTransGen.refl
  | tail _ last ih => exact ih.tail (last.markFree ptrs)

/-- The list in the course of a sequence of releases. -/
theorem Releasing.list_eq {done : List UInt64} (releasing : Releasing bs done h cs) :
    cs = Block.mergeFree (Block.markFree done bs) := by
  rw [← mergeFree_of_merges releasing.merges, mergeFree_of_separate releasing.inv.separate]

/-- A release in a sequence. -/
theorem Releasing.step {done : List UInt64} (releasing : Releasing bs done h cs) {ptr : UInt64}
    (live : ∃ b ∈ bs, b.free = false ∧ b.pointer = ptr) :
    (ptr ∈ done → kfree ptr h = h) ∧ ∃ ds, Releasing bs (done ++ [ptr]) (kfree ptr h) ds := by
  obtain ⟨b, inList, used, rfl⟩ := live
  by_cases again : b.pointer ∈ done
  · have same := releasing.inv.listed.kfree_stale (releasing.stale _ again)
    have members (p : UInt64) : p ∈ done ++ [b.pointer] ↔ p ∈ done := by
      rw [List.mem_append, List.mem_singleton, or_iff_left_iff_imp]
      rintro rfl
      exact again
    refine ⟨fun _ => same, cs, ?_⟩
    rw [same]
    refine ⟨releasing.inv, ?_, fun x usedX => ?_, fun p inDone => ?_⟩
    · rw [markFree_congr members]
      exact releasing.merges
    · rw [members]
      exact releasing.used x usedX
    · exact releasing.stale p ((members p).mp inDone)
  · have inCs : b ∈ cs := (releasing.used b used).mpr ⟨inList, again⟩
    obtain ⟨ds, release⟩ := releasing.inv.kfree inCs used
    refine ⟨fun absurd => (again absurd).elim, ds, release.inv, ?_, fun x usedX => ?_,
      fun p inDone => ?_⟩
    · obtain ⟨es, first, second⟩ := release.merges
      rw [← markFree_markFree]
      exact ((markFree_of_merges releasing.merges [b.pointer]).tail first).tail second
    · rw [release.used x usedX, releasing.used x usedX, List.mem_append, List.mem_singleton, not_or,
        and_assoc]
      refine and_congr_right fun inBs => and_congr_right fun notDone => not_congr ⟨?_, ?_⟩
      · rintro rfl
        rfl
      · intro same
        exact releasing.inv.listed.eq_of_pointer ((releasing.used x usedX).mpr ⟨inBs, notDone⟩) inCs
          same
    · rw [List.mem_append, List.mem_singleton] at inDone
      rcases inDone with old | rfl
      · exact release.stale _ (releasing.stale p old)
      · exact Block.stale_pointer release.own

/-- Sequences of releases of live pointers. -/
theorem HeapInv.kfreeAll (inv : HeapInv h bs) (ptrs : List UInt64)
    (live : ∀ ptr ∈ ptrs, ∃ b ∈ bs, b.free = false ∧ b.pointer = ptr) :
    ∃ cs, Releasing bs ptrs (kfreeAll ptrs h) cs := by
  induction ptrs using List.reverseRecOn with
  | nil =>
    refine ⟨bs, inv, ?_, fun x _ => by simp, by simp⟩
    rw [markFree_nil]
  | append_singleton ptrs ptr ih =>
    obtain ⟨cs, releasing⟩ := ih fun p inList => live p (List.mem_append_left _ inList)
    rw [Symphony.kfreeAll, List.foldl_append]
    exact (releasing.step (live ptr (by simp))).2

/-- Releases commute: in every session of a run, two sequences of releases of live pointers with
the same members lead to the same list, which is the list before with the released blocks
marked free and free neighbours merged. A release of a pointer that was released before reads a
flag that is set and changes nothing. -/
theorem kfree_commutes (fresh : source.Fresh boot Ready) (ready : Ready machine [])
    (run : HeapRun boot source machine s) :
    ∃ bs, Listed s.heap bs ∧
      (∀ ps qs : List UInt64, (∀ p ∈ ps, p ∈ s.live.map Allocation.pointer) →
        (∀ p, p ∈ ps ↔ p ∈ qs) →
        SameList (kfreeAll ps s.heap) (kfreeAll qs s.heap)
          (Block.mergeFree (Block.markFree ps bs))) ∧
      ∀ (ps : List UInt64) (ptr : UInt64), (∀ p ∈ ps, p ∈ s.live.map Allocation.pointer) →
        ptr ∈ ps → (kfreeAll ps s.heap).mem.blockFree (ptr - headerSize) = true ∧
          kfree ptr (kfreeAll ps s.heap) = kfreeAll ps s.heap := by
  obtain ⟨bs, sound⟩ := run.sound fresh ready
  have releases (ps : List UInt64) (live : ∀ p ∈ ps, p ∈ s.live.map Allocation.pointer) :
      ∃ cs, Releasing bs ps (kfreeAll ps s.heap) cs :=
    sound.inv.kfreeAll ps fun p inList => (sound.live_iff p).mp (live p inList)
  refine ⟨bs, sound.inv.listed, fun ps qs live same => ?_, fun ps ptr live inList => ?_⟩
  · obtain ⟨cs, first⟩ := releases ps live
    obtain ⟨ds, second⟩ := releases qs fun p inList => live p ((same p).mpr inList)
    have listFirst := first.list_eq
    have listSecond := second.list_eq
    rw [← markFree_congr same] at listSecond
    rw [← listFirst]
    apply first.inv.listed.same
    rw [listFirst, ← listSecond]
    exact second.inv.listed
  · obtain ⟨cs, releasing⟩ := releases ps live
    have stale := releasing.stale ptr inList
    exact ⟨stale.blockFree releasing.inv.listed, releasing.inv.listed.kfree_stale stale⟩

/-- A session of the machine with two live allocations. -/
theorem heapBoot_pair : ∃ machine, PagesReady heapBoot machine [] ∧ ∃ s : Session,
    HeapRun heapBoot pmmAlloc machine s ∧ ∃ p q, s.live = [⟨p, 24⟩, ⟨q, 100⟩] := by
  have small : (100 : UInt64).toNat ≤ 2 ^ 42 := by decide
  obtain ⟨machine, ready, h, h', start, cs, d, inv, taken, origin, -, one⟩ :=
    heapBoot_kmalloc small (by decide)
  -- The rest of the first block has room for the second request.
  have large : (kmallocRound 100).toNat + 32 < (initialBlock start).size.toNat := by
    rw [initialBlock_size]
    decide
  have rest : (initialBlock start).remainder (kmallocRound 100) ∈ cs := by
    rw [(origin.split large).2]
    simp
  have fits := inv.listed.fits _ (List.mem_singleton_self _)
  have suits : ((initialBlock start).remainder (kmallocRound 100)).Suits (kmallocRound 24) := by
    refine ⟨rfl, ?_⟩
    rw [(fits.remainder large).2, initialBlock_size]
    decide
  obtain ⟨h'', -, e, again, -⟩ := (taken.inv inv.tiles inv.size).kmalloc_direct ⟨_, rest, suits⟩
  have two := one.call _ _ (.kmalloc 24) (show (24 : UInt64).toNat ≤ 2 ^ 42 by decide)
    (perform_kmalloc again)
  exact ⟨machine, ready, _, two, e.pointer, d.pointer, rfl⟩

/-- Two live pointers of the machine may be released in either order. -/
theorem kfree_commutes_heapBoot : ∃ machine, ∃ s : Session, HeapRun heapBoot pmmAlloc machine s ∧
    ∃ p q, p ≠ q ∧ s.live.map Allocation.pointer = [p, q] ∧
      ∃ bs, SameList (kfreeAll [p, q] s.heap) (kfreeAll [q, p] s.heap) bs := by
  obtain ⟨machine, ready, s, run, p, q, live⟩ := heapBoot_pair
  have pointers : s.live.map Allocation.pointer = [p, q] := congrArg _ live
  obtain ⟨_, sound⟩ := run.sound heapBoot_fresh ready
  have distinct := sound.distinct
  rw [pointers] at distinct
  have different : p ≠ q := by simpa using distinct
  obtain ⟨bs, -, same, -⟩ := kfree_commutes heapBoot_fresh ready run
  have members : ∀ x ∈ [p, q], x ∈ s.live.map Allocation.pointer := by
    rw [pointers]
    exact fun x inList => inList
  have either (x : UInt64) : x ∈ [p, q] ↔ x ∈ [q, p] := (List.Perm.swap q p []).mem_iff
  exact ⟨machine, s, run, p, q, different, pointers, _, same [p, q] [q, p] members either⟩

/-! ## A release after an allocation -/

/-- The release of a block that was just taken restores the list, with free neighbours merged. -/
theorem Taken.kfree {r : UInt64} (taken : Taken h h' bs cs r b) (inv : HeapInv h' cs) :
    Listed (kfree b.pointer h') (Block.mergeFree bs) := by
  have inList : b ∈ cs := (taken.used b taken.taken).mpr (Or.inr rfl)
  obtain ⟨ds, release⟩ := inv.kfree inList taken.taken
  rw [taken.undo.mergeFree_eq, ← release.list_eq]
  exact release.inv.listed

/-- `kfree` undoes `kmalloc`: where a free block has room, the list is restored exactly.
Otherwise a new free region is appended to it, and merged with the last block exactly where
that is free and touches the region. -/
theorem kfree_kmalloc (fresh : source.Fresh boot Ready) (ready : Ready machine [])
    (run : HeapRun boot source machine s) (size : UInt64) (small : size.toNat ≤ 2 ^ 42) :
    ∃ bs, Listed s.heap bs ∧
      ((∃ b ∈ bs, b.Suits (kmallocRound size)) →
        ∃ ptr h', kmalloc boot source size s.heap = .ok (ptr, h') ∧
          SameList s.heap (kfree ptr h') bs) ∧
      ((¬ ∃ b ∈ bs, b.Suits (kmallocRound size)) →
        Meets (kmalloc boot source size s.heap)
          (fun out => ∃ front last c region, bs = front ++ [last] ∧ c.free = true ∧
            (kfree out.1 out.2).regions = s.heap.regions ++ [region] ∧ c.extent = region.extent ∧
            Listed (kfree out.1 out.2)
              (if last.Mergeable c then front ++ [last.merged c] else front ++ [last, c]))
          fun e => e = .panic "Out of Memory!") := by
  obtain ⟨bs, sound⟩ := run.sound fresh ready
  have inv := sound.inv
  refine ⟨bs, inv.listed, fun suits => ?_, fun none => ?_⟩
  · obtain ⟨h', cs, d, allocated, -, taken⟩ := inv.kmalloc_direct suits
    have restored := taken.kfree (taken.inv inv.tiles inv.size)
    rw [mergeFree_of_separate inv.separate] at restored
    exact ⟨d.pointer, h', allocated, inv.listed.same restored⟩
  · have rounded := kmallocRound_of_le small
    refine (inv.kmalloc_served fresh sound.ready (by omega)).mono (fun out meets => ?_) fun _ => id
    obtain ⟨cs, d, same, served⟩ := meets
    rw [same]
    cases served with
    | direct searched taken =>
      obtain ⟨before, b, after, rfl, origin⟩ := taken.origin
      exact absurd ⟨b, by simp, origin.suits⟩ none
    | extended unfit frames machine obtained h₁ c extension extended searched taken =>
      obtain ⟨region, regions, extent, -⟩ := extended.regions
      obtain ⟨front, last, rfl⟩ := (List.eq_nil_or_concat' bs).resolve_left inv.listed.nonempty
      have inv' := taken.inv extended.tiles extended.size
      have restored := taken.kfree inv'
      obtain ⟨es, release⟩ := inv'.kfree ((taken.used d taken.taken).mpr (Or.inr rfl)) taken.taken
      have fitsLast := extended.listed.fits last (by simp)
      have fitsC := extended.listed.fits c (by simp)
      rw [List.append_assoc] at restored
      change Listed _ (Block.mergeFree (front ++ [last, c])) at restored
      rw [mergeFree_concat inv.separate fitsLast fitsC] at restored
      refine ⟨front, last, c, region, rfl, extended.free, ?_, extent.symm, restored⟩
      rw [release.keeps.regions, taken.keeps.regions, regions]

/-- On the fresh heap of the machine a release restores the list before the allocation. -/
theorem kfree_kmalloc_heapBoot : ∃ machine, ∃ s : Session, HeapRun heapBoot pmmAlloc machine s ∧
    ∃ bs, Listed s.heap bs ∧ ∃ ptr h', kmalloc heapBoot pmmAlloc 24 s.heap = .ok (ptr, h') ∧
      SameList s.heap (kfree ptr h') bs := by
  obtain ⟨machine, h, -, ready, run⟩ := heapBoot_runs
  obtain ⟨start, inv, -⟩ := (kheapInit_meets heapBoot_fresh ready).of_ok run
  have first := HeapRun.init h run
  obtain ⟨bs, listed, restored, -⟩ := kfree_kmalloc heapBoot_fresh ready first 24 (by decide)
  have only : [initialBlock start] = bs := inv.listed.unique listed
  have suits : ∃ b ∈ bs, b.Suits (kmallocRound 24) :=
    ⟨_, only ▸ List.mem_singleton_self _, initialBlock_suits start (by decide)⟩
  exact ⟨machine, _, first, bs, listed, restored suits⟩

end Symphony
