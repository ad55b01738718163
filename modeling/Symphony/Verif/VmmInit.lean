import Symphony.Verif.AddressSpace
import Symphony.Verif.KernelSpace
import Mathlib.Data.Finset.Card
import Mathlib.Data.Set.Finite.Basic
import Mathlib.Data.Set.Finite.Range

/-!
# The page table of the kernel

`vmm_init` builds the address space of the kernel, or the page frame allocator runs out of
memory; the tables it needs are counted by the upper paths of its pages. So every frame that
the allocator can hand out is mapped at its place in the direct map, and the kernel at its own.
-/

namespace Symphony

variable {boot : Boot} {s t : Machine} {others : Nat → Prop} {spaces : Spaces}

/-! ## Frames for the tables -/

/-- Some present page has the upper path, so its tables exist. -/
def Space.Near (space : Space) (path : List (Fin 512)) : Prop :=
  ∃ page, upperPath page = path ∧ (space page).present = true

open Classical in
/-- Number of the paths whose tables may be missing. -/
noncomputable def Space.missing (space : Space) (paths : Finset (List (Fin 512))) : Nat :=
  (paths.filter fun path => ¬ space.Near path).card

/-- Three frames were used for each path that is no longer missing. -/
def Grown (s t : Machine) (paths : Finset (List (Fin 512))) (before after : Space) : Prop :=
  ∃ created, s.Uses t (3 * created) ∧ created + after.missing paths ≤ before.missing paths

open Classical in
/-- At most all paths are missing. -/
theorem Space.missing_le_card (space : Space) (paths : Finset (List (Fin 512))) :
    space.missing paths ≤ paths.card :=
  Finset.card_filter_le paths _

/-- Tables that exist stay, so no more of them are missing. -/
theorem Space.missing_le {before after : Space} (paths : Finset (List (Fin 512)))
    (keeps : ∀ path, before.Near path → after.Near path) :
    after.missing paths ≤ before.missing paths := by
  apply Finset.card_le_card
  intro path
  simp only [Finset.mem_filter]
  exact fun both => ⟨both.1, fun near => both.2 (keeps path near)⟩

open Classical in
/-- A table that is created is no longer missing. -/
theorem Space.missing_lt {before after : Space} {paths : Finset (List (Fin 512))}
    (keeps : ∀ path, before.Near path → after.Near path) {path : List (Fin 512)}
    (inside : path ∈ paths) (absent : ¬ before.Near path) (created : after.Near path) :
    1 + after.missing paths ≤ before.missing paths := by
  rw [Nat.add_comm]
  apply Finset.card_lt_card
  rw [Finset.ssubset_iff_of_subset]
  · refine ⟨path, ?_, ?_⟩
    · exact Finset.mem_filter.mpr ⟨inside, absent⟩
    · exact fun here => (Finset.mem_filter.mp here).2 created
  · intro other
    simp only [Finset.mem_filter]
    exact fun both => ⟨both.1, fun near => both.2 (keeps other near)⟩

/-- A path of a present page leads to a table. -/
theorem Mapping.reached_of_near (mapping : Mapping boot s others spaces) {pt : UInt64}
    {space : Space} (live : spaces pt = some space) {path : List (Fin 512)} (near : space.Near path) :
    ∃ frame, follow (childAt boot s.mem) (frameOf boot pt) path = some frame := by
  obtain ⟨page, rfl, present⟩ := near
  have leaf := mapping.leaves pt space live page
  rw [lookup] at leaf
  cases reached : follow (childAt boot s.mem) (frameOf boot pt) (upperPath page) with
  | some frame => exact ⟨frame, rfl⟩
  | none =>
    rw [reached] at leaf
    rw [← leaf] at present
    cases present

/-- A present page is mapped, with at most three frames for the tables of its path. -/
theorem Mapping.map_grown (limine : boot.Limine) (low : boot.UsableBelow (2 ^ 52))
    (mapping : Mapping boot s others spaces) {pt : UInt64} {space : Space}
    (live : spaces pt = some space) (physAddr virtAddr : UInt64)
    {paths : Finset (List (Fin 512))} (inside : upperPath (pageNumber virtAddr) ∈ paths) :
    Meets (archVmmMap boot pt physAddr virtAddr (vmmPresent ||| vmmRwx) s)
      (fun t => Mapping boot t others (Function.update spaces pt (some (space.map
          (pageNumber virtAddr) (physFrame physAddr) (vmmPresent ||| vmmRwx)))) ∧
        Grown s t paths space (space.map (pageNumber virtAddr) (physFrame physAddr)
          (vmmPresent ||| vmmRwx)))
      (s.Exhausted (3 * space.missing paths)) := by
  have here : (space.map (pageNumber virtAddr) (physFrame physAddr) (vmmPresent ||| vmmRwx)).Near
      (upperPath (pageNumber virtAddr)) := by
    refine ⟨pageNumber virtAddr, rfl, ?_⟩
    rw [Space.map_kernel, Function.update_self]
    rfl
  have keeps (path : List (Fin 512)) (near : space.Near path) :
      (space.map (pageNumber virtAddr) (physFrame physAddr) (vmmPresent ||| vmmRwx)).Near path := by
    obtain ⟨page, same, present⟩ := near
    by_cases mapped : page = pageNumber virtAddr
    · rwa [← same, mapped]
    · refine ⟨page, same, ?_⟩
      rwa [Space.map_kernel, Function.update_of_ne mapped]
  by_cases near : space.Near (upperPath (pageNumber virtAddr))
  · obtain ⟨frame, reached⟩ := mapping.reached_of_near live near
    apply (mapping.map_of_reached limine live physAddr reached (vmmPresent ||| vmmRwx)).mono _
      fun _ => False.elim
    intro t both
    exact ⟨both.2, 0, both.1, by rw [Nat.zero_add]; exact Space.missing_le paths keeps⟩
  · have less := Space.missing_lt keeps inside near here
    apply (mapping.map_meets limine low live physAddr virtAddr (vmmPresent ||| vmmRwx)).mono
    · intro t both
      exact ⟨both.2, 1, both.1, less⟩
    · intro e exhausted
      exact exhausted.mono (by omega)

/-- Nothing is created in an empty step. -/
theorem Grown.refl (s : Machine) (paths : Finset (List (Fin 512))) (space : Space) :
    Grown s s paths space space :=
  ⟨0, Machine.Uses.refl s, by rw [Nat.zero_add]⟩

/-- Two steps create what each of them creates. -/
theorem Grown.trans {u : Machine} {paths : Finset (List (Fin 512))} {before middle after : Space}
    (head : Grown s t paths before middle) (tail : Grown t u paths middle after) :
    Grown s u paths before after := by
  obtain ⟨first, usesFirst, lessFirst⟩ := head
  obtain ⟨second, usesSecond, lessSecond⟩ := tail
  exact ⟨first + second, (usesFirst.trans usesSecond).mono (by omega), by omega⟩

/-- What is too much after a step is too much before it. -/
theorem Grown.exhausted {paths : Finset (List (Fin 512))} {before after : Space} {e : Fault}
    (head : Grown s t paths before after) (exhausted : t.Exhausted (3 * after.missing paths) e) :
    s.Exhausted (3 * before.missing paths) e := by
  obtain ⟨created, uses, less⟩ := head
  exact (exhausted.after uses).mono (by omega)

/-! ## The loops of `vmm_init` -/

/-- The invariant rule of `vmm_map_range`, where its index cannot wrap. -/
theorem vmmMapRange_rule {pt physAddr virtAddr size : UInt64} {flags : Int32}
    (fits : size.toNat + 4096 ≤ 2 ^ 64) (invariant : Nat → Machine → Prop) {fault : Fault → Prop}
    (turn : ∀ k t, k < pageCount size → invariant k t →
      Meets (archVmmMap boot pt (physAddr + UInt64.ofNat (4096 * k))
        (virtAddr + UInt64.ofNat (4096 * k)) flags t) (invariant (k + 1)) fault)
    (start : invariant 0 s) :
    Meets (vmmMapRange boot pt physAddr virtAddr size flags s) (invariant (pageCount size)) fault := by
  have page : pageSize.toNat = 4096 := rfl
  have loop : Meets (vmmMapRange boot pt physAddr virtAddr size flags s) _ fault :=
    forStep_meets (fun i t => ∃ k, i = 4096 * k ∧ i < size.toNat + 4096 ∧ invariant k t) (by decide)
      (by rw [page]; exact fits) ?_ (Nat.le_of_lt size.toNat_lt |>.trans (Nat.le_add_left _ _))
      ⟨0, rfl, Nat.add_pos_right _ (by decide), start⟩
  · apply loop.mono _ fun _ => id
    intro t exit
    obtain ⟨i, lower, -, k, rfl, upper, holds⟩ := exit
    rwa [show pageCount size = k by unfold pageCount; omega]
  · intro i t below holds
    obtain ⟨k, index, -, holds⟩ := holds
    have word : i = UInt64.ofNat (4096 * k) := by rw [← index, UInt64.ofNat_toNat]
    rw [word]
    apply (turn k t (by unfold pageCount; omega) holds).mono _ fun _ => id
    intro u next
    rw [← word, index, page]
    exact ⟨k + 1, by omega, by omega, next⟩

/-- `vmm_map_range` maps the pages of the range. -/
theorem Mapping.mapRange_meets (limine : boot.Limine) (low : boot.UsableBelow (2 ^ 52))
    (mapping : Mapping boot s others spaces) {pt : UInt64} {space : Space}
    (live : spaces pt = some space) (physAddr virtAddr : UInt64) {size : UInt64}
    (fits : size.toNat + 4096 ≤ 2 ^ 64) {paths : Finset (List (Fin 512))}
    (inside : ∀ j < pageCount size,
      upperPath (pageNumber (virtAddr + UInt64.ofNat (4096 * j))) ∈ paths) :
    Meets (vmmMapRange boot pt physAddr virtAddr size (vmmPresent ||| vmmRwx) s)
      (fun t => Mapping boot t others
          (Function.update spaces pt (some (space.mapKernel physAddr virtAddr size))) ∧
        Grown s t paths space (space.mapKernel physAddr virtAddr size))
      (s.Exhausted (3 * space.missing paths)) := by
  -- After `k` turns the first `k` pages are mapped.
  apply vmmMapRange_rule fits fun k t => Mapping boot t others (Function.update spaces pt
      (some (space.mapRange physAddr virtAddr (vmmPresent ||| vmmRwx) k))) ∧
    Grown s t paths space (space.mapRange physAddr virtAddr (vmmPresent ||| vmmRwx) k)
  · intro k t below holds
    obtain ⟨mapped, grown⟩ := holds
    have turn := mapped.map_grown limine low (Function.update_self pt _ spaces)
      (physAddr + UInt64.ofNat (4096 * k)) (virtAddr + UInt64.ofNat (4096 * k)) (inside k below)
    rw [Function.update_idem] at turn
    apply turn.mono
    · intro u next
      exact ⟨next.1, grown.trans next.2⟩
    · intro e exhausted
      exact grown.exhausted exhausted
  · refine ⟨?_, Grown.refl s paths space⟩
    rw [Space.mapRange, ← live, Function.update_eq_self]
    exact mapping

/-- Pages of a range are present once it is mapped. -/
theorem Space.mapKernel_inside (space : Space) {physAddr virtAddr size : UInt64} {j : Nat}
    (inside : j < pageCount size) : (space.mapKernel physAddr virtAddr size
      (pageNumber (virtAddr + UInt64.ofNat (4096 * j)))).present = true := by
  cases space.mapKernel_cases physAddr virtAddr size
    (pageNumber (virtAddr + UInt64.ofNat (4096 * j))) with
  | inl kept => exact absurd rfl (kept.2 j inside)
  | inr mapped =>
    obtain ⟨k, -, -, value⟩ := mapped
    rw [value]
    rfl

/-- Present pages stay present while a range is mapped. -/
theorem Space.mapKernel_present {space : Space} {page : BitVec 36} (physAddr virtAddr size : UInt64)
    (present : (space page).present = true) :
    (space.mapKernel physAddr virtAddr size page).present = true := by
  cases space.mapKernel_cases physAddr virtAddr size page with
  | inl kept => rwa [kept.1]
  | inr mapped =>
    obtain ⟨k, -, -, value⟩ := mapped
    rw [value]
    rfl

/-- Present pages stay present in the loop over the memory map. -/
theorem Space.foldl_present {space : Space} {page : BitVec 36} (entries : List LimineMemmapEntry)
    (present : (space page).present = true) :
    (entries.foldl (Space.mapEntry boot) space page).present = true := by
  induction entries generalizing space with
  | nil => exact present
  | cons entry entries ih => exact ih (mapKernel_present _ _ _ present)

/-- The upper paths of the kernel's address space. -/
def Boot.Covered (boot : Boot) (paths : Finset (List (Fin 512))) : Prop :=
  ∀ page, (boot.kernelSpace page).present = true → upperPath page ∈ paths

/-- The loop of `vmm_init` over the memory map builds the direct map. -/
theorem Mapping.mapEntries_meets {top : Nat} (limine : boot.Limine) (layout : boot.Layout top)
    (low : boot.UsableBelow (2 ^ 52)) (mapping : Mapping boot s others spaces) {pt : UInt64}
    (live : spaces pt = some fun _ => .zero) {paths : Finset (List (Fin 512))}
    (covered : boot.Covered paths) :
    Meets (forRange (vmmMapEntry boot pt) 0 (bootProtoMemmapEntryCount boot) s)
      (fun t => Mapping boot t others (Function.update spaces pt (some boot.directSpace)) ∧
        Grown s t paths (fun _ => .zero) boot.directSpace)
      (s.Exhausted (3 * Space.missing (fun _ => .zero) paths)) := by
  -- The invariant at index `i`: the first `i` entries are mapped.
  let spaceAt (i : Nat) : Space := (boot.entries.take i).foldl (Space.mapEntry boot) fun _ => .zero
  have start : Mapping boot s others (Function.update spaces pt (some (spaceAt 0))) ∧
      Grown s s paths (fun _ => .zero) (spaceAt 0) := by
    refine ⟨?_, Grown.refl s paths _⟩
    rw [show spaceAt 0 = fun _ => .zero from rfl, ← live, Function.update_eq_self]
    exact mapping
  have whole : spaceAt boot.entries.length = boot.directSpace := by
    change (boot.entries.take boot.entries.length).foldl _ _ = _
    rw [List.take_length]
    rfl
  have loop : Meets (forLoop (fun i => vmmMapEntry boot pt (UInt64.ofNat i)) 0
      boot.entries.length s) _ (s.Exhausted (3 * Space.missing (fun _ => .zero) paths)) :=
    forLoop_meets (fun i t => Mapping boot t others (Function.update spaces pt (some (spaceAt i))) ∧
      Grown s t paths (fun _ => .zero) (spaceAt i)) ?_ start
  · rw [Nat.zero_add, whole] at loop
    rw [forRange, toNat_entryCount, show (0 : UInt64).toNat = 0 from rfl, Nat.sub_zero]
    exact loop
  · intro i t _ below holds
    rw [Nat.zero_add] at below
    obtain ⟨mapped, grown⟩ := holds
    have next : spaceAt (i + 1) = (spaceAt i).mapEntry boot boot.entries[i] := by
      change (boot.entries.take (i + 1)).foldl _ _ = _
      rw [List.take_succ_eq_append_getElem below, List.foldl_append]
      rfl
    have rest : boot.directSpace =
        (boot.entries.drop (i + 1)).foldl (Space.mapEntry boot) (spaceAt (i + 1)) := by
      change _ = (boot.entries.drop (i + 1)).foldl _ ((boot.entries.take (i + 1)).foldl _ _)
      rw [← List.foldl_append, List.take_append_drop]
      rfl
    have index : (UInt64.ofNat i).toNat = i := by
      have := boot.count_fits
      rw [toNat_ofNat_of_fits (by omega)]
    have found : bootProtoMemmapEntryGet boot (UInt64.ofNat i) = .ok boot.entries[i].toBootProto := by
      have get := entryGet_of_lt boot (UInt64.ofNat i) (by rw [index]; exact below)
      simp only [index] at get
      exact get
    have upper := layout.entries _ (List.getElem_mem below)
    have bound := layout.low
    have range := dropPageZero_cases boot.entries[i]
    unfold LimineMemmapEntry.stop at upper
    have inside : ∀ j < pageCount boot.entries[i].toBootProto.dropPageZero.length,
        upperPath (pageNumber (boot.entries[i].toBootProto.dropPageZero.base + boot.offset +
          UInt64.ofNat (4096 * j))) ∈ paths := by
      intro j turn
      apply covered
      apply Space.mapKernel_present
      rw [rest]
      apply Space.foldl_present
      rw [next]
      exact Space.mapKernel_inside _ turn
    have turn := mapped.mapRange_meets limine low (Function.update_self pt _ spaces)
      boot.entries[i].toBootProto.dropPageZero.base _
      (show boot.entries[i].toBootProto.dropPageZero.length.toNat + 4096 ≤ 2 ^ 64 by omega) inside
    rw [Function.update_idem] at turn
    rw [vmmMapEntry, found, ok_bind, bootProtoHhdmOffset, next]
    apply turn.mono
    · intro u both
      exact ⟨both.1, grown.trans both.2⟩
    · intro e exhausted
      exact grown.exhausted exhausted

/-- `vmm_init` builds the kernel's address space, or there are too few frames for its tables. -/
theorem Mapping.vmmInit_meets {top : Nat} (limine : boot.Limine) (layout : boot.Layout top)
    (mapping : Mapping boot s others spaces) {paths : Finset (List (Fin 512))}
    (covered : boot.Covered paths) :
    Meets (vmmInit boot s)
      (fun v => v.cr3 = v.kernelPT - boot.offset ∧ v.machine.bitmap = s.bitmap ∧
        v.machine.bitmapSize = s.bitmapSize ∧ Mapping boot v.machine others
          (Function.update spaces v.kernelPT (some boot.kernelSpace)))
      (s.Exhausted (3 * paths.card + 1)) := by
  have top47 := layout.low
  have low : boot.UsableBelow (2 ^ 52) := by
    intro entry inMap _
    have := layout.entries entry inMap
    omega
  have some_missing := Space.missing_le_card (fun _ => Leaf.zero) paths
  rw [vmmInit]
  apply ((mapping.newPt_meets limine).mono (fun _ => id) fun e exhausted =>
    exhausted.mono (Nat.le_add_left 1 _)).bind
  intro r created
  obtain ⟨kernelPT, t⟩ := r
  obtain ⟨-, usesT, mapping⟩ := created
  dsimp only at usesT mapping
  have entries := mapping.mapEntries_meets limine layout low
    (Function.update_self kernelPT _ spaces) covered
  rw [Function.update_idem] at entries
  apply (entries.mono (fun _ => id) fun e exhausted =>
    (exhausted.after usesT).mono (by omega)).bind
  intro u mapped
  obtain ⟨mapping, grown⟩ := mapped
  have size := layout.kernelSize_lt
  have kernel := mapping.mapRange_meets limine low (Function.update_self kernelPT _ spaces)
    boot.physicalBase boot.virtualBase
    (show boot.kernelSize.toNat + 4096 ≤ 2 ^ 64 by omega)
    fun j inside => covered _ (Space.mapKernel_inside boot.directSpace inside)
  rw [Function.update_idem] at kernel
  apply (kernel.mono (fun _ => id) fun e exhausted =>
    ((grown.exhausted exhausted).after usesT).mono (by omega)).bind
  intro v result
  obtain ⟨mapping, grownV⟩ := result
  obtain ⟨created, usesU, -⟩ := grown
  obtain ⟨createdV, usesV, -⟩ := grownV
  have uses := (usesT.trans usesU).trans usesV
  exact ⟨rfl, uses.bitmap, uses.size, mapping⟩

/-! ## The page table of the kernel -/

/-- A frame that `pmm_alloc` returns in some run in which the bitmap lies where it lies now. -/
def Machine.HandsOut (boot : Boot) (s : Machine) (f : Nat) : Prop :=
  ∃ u u' held base pages, Owned boot u held ∧ u.bitmap = s.bitmap ∧ u.bitmapSize = s.bitmapSize ∧
    pmmAlloc pages u = .ok (base, u') ∧ PageRange base pages f

/-- Only allocatable frames are returned. -/
theorem Machine.HandsOut.allocatable (limine : boot.Limine) {f : Nat} (hands : s.HandsOut boot f) :
    s.Allocatable boot f := by
  obtain ⟨u, u', held, base, pages, run, bitmap, size, returned, inside⟩ := hands
  have fresh := ((run.owns limine).alloc limine).of_ok returned
  have allocatable := (fresh.2.1 f inside).1
  rwa [Allocatable, BitmapFrame, InBitmap, bitmap, size] at allocatable

/-- Every allocatable frame is mapped in the direct map. -/
theorem Boot.Layout.allocatable_mapped {top : Nat} (limine : boot.Limine) (layout : boot.Layout top)
    {f : Nat} (allocatable : s.Allocatable boot f) :
    f < 2 ^ 35 ∧ boot.kernelSpace (pageNumber (tablePointer boot f)) = kernelLeaf f := by
  obtain ⟨⟨entry, inMap, usable, has⟩, nonzero, -⟩ := allocatable
  have low := layout.low
  have upper := layout.entries entry inMap
  have stop := has.2
  refine ⟨by omega, ?_⟩
  rw [Boot.kernelSpace, layout.kernel_apart _ (by omega)]
  exact layout.foldl_maps (fun e is => is) _ inMap (limine.aligned entry inMap usable).1 has nonzero

/-- The page of an address in the direct map. -/
theorem pageNumber_direct (aligned : 4096 ∣ boot.offset.toNat) (a : UInt64) :
    pageNumber (boot.offset + a) = pageNumber (tablePointer boot (a.toNat / 4096)) := by
  have small := a.toNat_lt
  apply BitVec.eq_of_toNat_eq
  rw [toNat_pageNumber_add aligned, toNat_pageNumber_direct aligned (by omega)]

/-- A leaf of the kernel's address space is what the processor finds. -/
theorem Mapping.kernelMapped (mapping : Mapping boot s others spaces) {pt : UInt64}
    (live : spaces pt = some boot.kernelSpace) {base physBase a : UInt64}
    (aligned : 4096 ∣ base.toNat) (physAligned : 4096 ∣ physBase.toNat)
    (leaf : boot.kernelSpace (pageNumber (base + a)) = kernelLeaf (physFrame (physBase + a))) :
    KernelMapped boot s.mem pt (base + a) (physBase + a) := by
  refine ⟨?_, by rw [mapping.walk_eq live, leaf]⟩
  rw [UInt64.toNat_add, UInt64.toNat_add]
  omega

/-- There are finitely many upper paths. -/
theorem exists_covered (boot : Boot) : ∃ paths, boot.Covered paths := by
  have finite : (Set.range upperPath).Finite := by
    apply Set.Finite.subset (Set.finite_range fun number : Fin (2 ^ 36) => upperPath (.ofFin number))
    intro path inside
    obtain ⟨page, rfl⟩ := inside
    exact ⟨page.toFin, rfl⟩
  exact ⟨finite.toFinset, fun page _ => finite.mem_toFinset.mpr ⟨page, rfl⟩⟩

/-- What `vmm_init` returns after `pmm_init`. -/
theorem vmmInit_returned {top : Nat} (limine : boot.Limine) (layout : boot.Layout top) {mem : Memory}
    {v : Vmm} (initialised : pmmInit boot (Machine.start mem) = .ok s)
    (returned : vmmInit boot s = .ok v) :
    Mapping boot v.machine (fun _ => False)
      (Function.update (fun _ => none) v.kernelPT (some boot.kernelSpace)) := by
  have mapping := ((Owned.init initialised).owns limine).mapping
  obtain ⟨paths, covered⟩ := exists_covered boot
  exact ((mapping.vmmInit_meets limine layout covered).of_ok returned).2.2.2

/-- If `pmm_init` and `vmm_init` return, the page table of the kernel translates every byte of
a frame that the allocator can hand out at its place in the direct map and every byte of the
kernel at its own place, and any other present page is one of the direct map that holds a byte
of the memory map. -/
theorem vmmInit_exact {top : Nat} (limine : boot.Limine) (layout : boot.Layout top) {mem : Memory}
    {v : Vmm} (initialised : pmmInit boot (Machine.start mem) = .ok s)
    (returned : vmmInit boot s = .ok v) :
    (∀ a : UInt64, s.HandsOut boot (a.toNat / 4096) →
      KernelMapped boot v.machine.mem v.kernelPT (boot.offset + a) a) ∧
    (∀ o : UInt64, o < boot.kernelSize →
      KernelMapped boot v.machine.mem v.kernelPT (boot.virtualBase + o) (boot.physicalBase + o)) ∧
    ∀ virtAddr tr, walk boot v.machine.mem v.kernelPT virtAddr = some tr → tr.leaf.present = true →
      (∃ o : UInt64, o < boot.kernelSize ∧
        pageNumber virtAddr = pageNumber (boot.virtualBase + o)) ∨
      ∃ a : UInt64, (∃ entry ∈ boot.entries, entry.Touches (a.toNat / 4096)) ∧
        pageNumber virtAddr = pageNumber (boot.offset + a) ∧
        KernelMapped boot v.machine.mem v.kernelPT (boot.offset + a) a := by
  have mapping := vmmInit_returned limine layout initialised returned
  have live : Function.update (fun _ => none) v.kernelPT (some boot.kernelSpace) v.kernelPT =
      some boot.kernelSpace := Function.update_self _ _ _
  have low := layout.low
  have direct (a : UInt64) (small : a.toNat / 4096 < 2 ^ 35)
      (leaf : boot.kernelSpace (pageNumber (tablePointer boot (a.toNat / 4096))) =
        kernelLeaf (a.toNat / 4096)) :
      KernelMapped boot v.machine.mem v.kernelPT (boot.offset + a) a := by
    have mapped : KernelMapped boot v.machine.mem v.kernelPT (boot.offset + a) (0 + a) := by
      apply mapping.kernelMapped live layout.offset (Nat.dvd_zero _)
      rw [pageNumber_direct layout.offset, leaf, UInt64.zero_add, physFrame_of_lt (by omega)]
    rwa [UInt64.zero_add] at mapped
  refine ⟨?_, ?_, ?_⟩
  · intro a hands
    obtain ⟨small, leaf⟩ := layout.allocatable_mapped limine (hands.allocatable limine)
    exact direct a small leaf
  · intro o inside
    exact mapping.kernelMapped live layout.virtualBase layout.physicalBase
      (layout.kernel_inside boot.directSpace inside)
  · intro virtAddr tr walked present
    rw [mapping.walk_eq live virtAddr, Option.some.injEq] at walked
    rw [← walked] at present
    change (boot.kernelSpace (pageNumber virtAddr)).present = true at present
    cases kernel_cases boot boot.directSpace (pageNumber virtAddr) with
    | inr inside => exact Or.inl inside
    | inl kept =>
      right
      rw [Boot.kernelSpace, kept] at present
      cases layout.foldl_cases (fun e is => is) (fun _ => Leaf.zero) (pageNumber virtAddr) with
      | inl zero =>
        rw [Boot.directSpace, zero] at present
        cases present
      | inr shown =>
        obtain ⟨p, touches, below, same, leaf⟩ := shown
        have number : (UInt64.ofNat (4096 * p)).toNat / 4096 = p := by
          rw [toNat_ofNat_of_fits (by omega)]
          omega
        refine ⟨UInt64.ofNat (4096 * p), ?_, ?_, ?_⟩
        · rw [number]
          exact touches
        · rw [pageNumber_direct layout.offset, number, same]
        · apply direct
          · omega
          · rw [number, Boot.kernelSpace, layout.kernel_apart _ below, ← same]
            exact leaf

/-- The direct map of the small memory map and the kernel do not overlap. -/
theorem smallBoot_layout : smallBoot.Layout 0x10000 where
  offset := by decide
  physicalBase := by decide
  virtualBase := by decide
  positive := by decide
  low := by decide
  entries := by decide
  apart a o below inside := by
    have offset : smallBoot.offset.toNat = 0xffff800000000000 := rfl
    have virtualBase : smallBoot.virtualBase.toNat = 0xffffffff80000000 := rfl
    have size : smallBoot.kernelSize.toNat = 0x2800 := rfl
    omega

/-- The upper path of a page from its number. -/
theorem upperPath_eq {page : BitVec 36} {n : Nat} {i j k : Fin 512} (number : page.toNat = n)
    (first : n / 2 ^ 27 = i) (second : n / 2 ^ 18 % 512 = j) (third : n / 2 ^ 9 % 512 = k) :
    upperPath page = [i, j, k] := by
  rw [upperPath, number]
  simp only [List.cons.injEq, Fin.ext_iff, Fin.val_ofNat, and_true]
  omega

/-- Two paths cover the kernel's address space of the small memory map. -/
theorem smallBoot_covered : smallBoot.Covered {[256, 0, 0], [511, 510, 0]} := by
  have offset : smallBoot.offset.toNat = 0xffff800000000000 := rfl
  have virtualBase : smallBoot.virtualBase.toNat = 0xffffffff80000000 := rfl
  have size : smallBoot.kernelSize.toNat = 0x2800 := rfl
  intro page present
  rw [Finset.mem_insert, Finset.mem_singleton]
  cases kernel_cases smallBoot smallBoot.directSpace page with
  | inr inside =>
    right
    obtain ⟨o, inside, rfl⟩ := inside
    rw [UInt64.lt_iff_toNat_lt, size] at inside
    have number := toNat_pageNumber_add smallBoot_layout.virtualBase o
    rw [virtualBase] at number
    apply upperPath_eq number <;> omega
  | inl kept =>
    left
    rw [Boot.kernelSpace, kept] at present
    cases smallBoot_layout.foldl_cases (fun e is => is) (fun _ => Leaf.zero) page with
    | inl zero =>
      rw [Boot.directSpace, zero] at present
      cases present
    | inr shown =>
      obtain ⟨p, -, below, rfl, -⟩ := shown
      have number := toNat_pageNumber_direct smallBoot_layout.offset (show p < 2 ^ 52 by omega)
      rw [offset] at number
      apply upperPath_eq number <;> omega

/-- On the small memory map `vmm_init` returns, and the kernel finds its first page and a free
frame. -/
theorem vmmInit_exact_smallBoot : ∃ s v, pmmInit smallBoot (Machine.start zeroMemory) = .ok s ∧
    vmmInit smallBoot s = .ok v ∧
    KernelMapped smallBoot v.machine.mem v.kernelPT 0xffffffff80000000 0x4000 := by
  obtain ⟨s, initialised, -, -, free⟩ := smallBoot_returns
  have spare : s.Spare 9 := ⟨smallBootFree, by decide, by decide, free⟩
  have mapping := ((Owned.init initialised).owns smallBoot_limine).mapping
  have built := mapping.vmmInit_meets smallBoot_limine smallBoot_layout smallBoot_covered
  have card : ({[256, 0, 0], [511, 510, 0]} : Finset (List (Fin 512))).card ≤ 2 := Finset.card_le_two
  obtain ⟨v, returned, -⟩ := (built.mono (fun _ => id) fun e exhausted =>
    exhausted.2 (spare.mono (by omega))).returns
  refine ⟨s, v, initialised, returned, ?_⟩
  exact (vmmInit_exact smallBoot_limine smallBoot_layout initialised returned).2.1 0 (by decide)

end Symphony
