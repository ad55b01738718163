import Symphony.Verif.HeapPages
import Symphony.Verif.TableDemand
import Symphony.Verif.VmmInit

/-!
# When the memory managers can be initialised

`vmm_init` needs a frame for each table of the kernel's address space and takes the least free
ones; `kheap_init` needs a run of 16 pages of what is left. So the memory map decides whether
the boot succeeds.
-/

namespace Symphony

variable {boot : Boot} {s t : Machine} {others : Nat → Prop} {spaces : Spaces} {space : Space}
  {pt virtAddr : UInt64} {mem : Memory} {top : Nat}

/-- The part of `_start` that initialises the memory managers. -/
def startMemory (boot : Boot) (mem : Memory) : Except Fault (Vmm × Kheap) := do
  let s ← pmmInit boot (Machine.start mem)
  let v ← vmmInit boot s
  let h ← kheapInit boot pmmAlloc v.machine
  .ok (v, h)

/-- The usable memory of a layout ends below 2^47. -/
theorem Boot.Layout.usableBelow {top : Nat} (layout : boot.Layout top) : boot.UsableBelow (2 ^ 51) := by
  intro entry inMap _
  have upper := layout.entries entry inMap
  have small := layout.low
  omega

/-- The calls that a successful boot makes. -/
theorem startMemory_eq_ok {v : Vmm} {h : Kheap} (started : startMemory boot mem = .ok (v, h)) :
    ∃ s, pmmInit boot (Machine.start mem) = .ok s ∧ vmmInit boot s = .ok v ∧
      kheapInit boot pmmAlloc v.machine = .ok h := by
  rw [startMemory, bind_eq_ok] at started
  obtain ⟨s, pmm, started⟩ := started
  rw [bind_eq_ok] at started
  obtain ⟨v', vmm, started⟩ := started
  rw [bind_eq_ok] at started
  obtain ⟨h', kheap, rest⟩ := started
  cases rest
  exact ⟨s, pmm, vmm, kheap⟩

/-! ## The loops of `vmm_init` -/

/-- The turns of the loops keep the invariant: each one maps a page of some paths for the kernel. -/
def KernelTurns (boot : Boot) (pt : UInt64) (paths : Finset (List (Fin 512)))
    (invariant : Space → Machine → Prop) (fault : Fault → Prop) : Prop :=
  ∀ space t physAddr virtAddr, upperPath (pageNumber virtAddr) ∈ paths → invariant space t →
    Meets (archVmmMap boot pt physAddr virtAddr (vmmPresent ||| vmmRwx) t)
      (invariant (space.map (pageNumber virtAddr) (physFrame physAddr) (vmmPresent ||| vmmRwx))) fault

section Rules

variable {paths : Finset (List (Fin 512))} {invariant : Space → Machine → Prop}
  {fault : Fault → Prop}

/-- The invariant rule of a range that is mapped for the kernel. -/
theorem KernelTurns.range (turns : KernelTurns boot pt paths invariant fault)
    (physAddr virtAddr : UInt64) {size : UInt64} (fits : size.toNat + 4096 ≤ 2 ^ 64)
    (inside : ∀ j < pageCount size,
      upperPath (pageNumber (virtAddr + UInt64.ofNat (4096 * j))) ∈ paths)
    (holds : invariant space s) :
    Meets (vmmMapRange boot pt physAddr virtAddr size (vmmPresent ||| vmmRwx) s)
      (invariant (space.mapKernel physAddr virtAddr size)) fault := by
  apply vmmMapRange_rule fits fun k t =>
    invariant (space.mapRange physAddr virtAddr (vmmPresent ||| vmmRwx) k) t
  · intro k t below holds
    exact turns _ t _ _ (inside k below) holds
  · exact holds

/-- The invariant rule of the loop over the memory map. -/
theorem KernelTurns.entries (turns : KernelTurns boot pt paths invariant fault)
    (layout : boot.Layout top) (covered : boot.Covered paths)
    (start : invariant (fun _ => .zero) s) :
    Meets (forRange (vmmMapEntry boot pt) 0 (bootProtoMemmapEntryCount boot) s)
      (invariant boot.directSpace) fault := by
  -- The invariant at index `i`: the first `i` entries are mapped.
  let spaceAt (i : Nat) : Space := (boot.entries.take i).foldl (Space.mapEntry boot) fun _ => .zero
  have whole : spaceAt boot.entries.length = boot.directSpace := by
    change (boot.entries.take boot.entries.length).foldl _ _ = _
    rw [List.take_length]
    rfl
  have loop : Meets (forLoop (fun i => vmmMapEntry boot pt (UInt64.ofNat i)) 0
      boot.entries.length s) _ fault :=
    forLoop_meets (fun i t => invariant (spaceAt i) t) ?_ start
  · rw [Nat.zero_add, whole] at loop
    rw [forRange, toNat_entryCount, show (0 : UInt64).toNat = 0 from rfl, Nat.sub_zero]
    exact loop
  · intro i t _ below holds
    rw [Nat.zero_add] at below
    have next : spaceAt (i + 1) = (spaceAt i).mapEntry boot boot.entries[i] := by
      change (boot.entries.take (i + 1)).foldl _ _ = _
      rw [List.take_succ_eq_append_getElem below, List.foldl_append]
      rfl
    have rest : boot.directSpace =
        (boot.entries.drop (i + 1)).foldl (Space.mapEntry boot) (spaceAt (i + 1)) := by
      change _ = (boot.entries.drop (i + 1)).foldl _ ((boot.entries.take (i + 1)).foldl _ _)
      rw [← List.foldl_append, List.take_append_drop]
      rfl
    have index : (UInt64.ofNat i).toNat = i := by
      have := boot.count_fits
      rw [toNat_ofNat_of_fits (by omega)]
    have found : bootProtoMemmapEntryGet boot (UInt64.ofNat i) = .ok boot.entries[i].toBootProto := by
      have get := entryGet_of_lt boot (UInt64.ofNat i) (by rw [index]; exact below)
      simp only [index] at get
      exact get
    have upper := layout.entries _ (List.getElem_mem below)
    have bound := layout.low
    have size := dropPageZero_cases boot.entries[i]
    unfold LimineMemmapEntry.stop at upper
    rw [vmmMapEntry, found, ok_bind, bootProtoHhdmOffset, next]
    apply turns.range _ _ (by omega) _ holds
    intro j turn
    apply covered
    apply Space.mapKernel_present
    rw [rest]
    apply Space.foldl_present
    rw [next]
    exact Space.mapKernel_inside _ turn

end Rules

/-! ## The frames that `vmm_init` takes -/

/-- The least free frames were taken, as many as there are paths that now lead to a table. -/
def TablesCounted (boot : Boot) (root : Nat) (paths : Finset (List (Fin 512))) (s t : Machine) : Prop :=
  ∃ count, s.Packs t count ∧ count + (absent (childAt boot t.mem) root paths).card = paths.card

section Demand

variable {paths : Finset (List (Fin 512))}

/-- Paths to tables have at most three steps. -/
theorem length_prefixes (full : ∀ path ∈ paths, path.length = 3) {q : List (Fin 512)}
    (member : q ∈ prefixes 3 paths) : q.length ≤ 3 := by
  rcases (mem_prefixes full).mp member with rfl | ⟨p, inPaths, isPrefix⟩
  · exact Nat.zero_le 3
  · exact isPrefix.length_le.trans (Nat.le_of_eq (full p inPaths))

/-- A new page table has its top-level table only. -/
theorem Mapping.newPt_counted (limine : boot.Limine) (mapping : Mapping boot s others spaces)
    (returned : archVmmNewPt boot s = .ok (pt, t)) :
    TablesCounted boot (frameOf boot pt) (prefixes 3 paths) s t := by
  obtain ⟨-, empty, -⟩ := mapping.takes_newPt limine returned
  have member : [] ∈ prefixes 3 paths := Finset.mem_insert_self _ _
  refine ⟨1, newTable_packs limine mapping.owns returned, ?_⟩
  have others : absent (childAt boot t.mem) (frameOf boot pt) (prefixes 3 paths) =
      (prefixes 3 paths).erase [] := by
    ext q
    rw [absent, Finset.mem_filter, Finset.mem_erase, and_comm]
    apply and_congr_left
    intro _
    cases q with
    | nil => simp [follow]
    | cons i q => simp [follow, empty i]
  rw [others, Finset.card_erase_of_mem member]
  have positive := Finset.card_pos.mpr ⟨_, member⟩
  omega

/-- A page that is mapped takes the frames for the tables that are missing on its path. -/
theorem Mapping.map_counted (limine : boot.Limine) (low : boot.UsableBelow (2 ^ 52))
    (full : ∀ path ∈ paths, path.length = 3) (mapping : Mapping boot t others spaces)
    (live : spaces pt = some space) (physAddr virtAddr : UInt64) (flags : Int32)
    (inside : upperPath (pageNumber virtAddr) ∈ paths)
    (counted : TablesCounted boot (frameOf boot pt) (prefixes 3 paths) s t) :
    Meets (archVmmMap boot pt physAddr virtAddr flags t)
      (fun u => TablesCounted boot (frameOf boot pt) (prefixes 3 paths) s u)
      (s.Exhausted (prefixes 3 paths).card) := by
  obtain ⟨count, packs, sum⟩ := counted
  have own : ∀ q, q <+: upperPath (pageNumber virtAddr) → q ∈ prefixes 3 paths :=
    fun q isPrefix => (mem_prefixes full).mpr (Or.inr ⟨_, inside, isPrefix⟩)
  have demand := mapping.map_demand limine low live physAddr virtAddr flags
  apply (demand.of_returned _).mono (fun _ => id)
  · intro e exhausted
    have bound : missing (childAt boot t.mem) (frameOf boot pt) (upperPath (pageNumber virtAddr)) ≤
        (absent (childAt boot t.mem) (frameOf boot pt) (prefixes 3 paths)).card :=
      missing_le_absent own
    exact (packs.exhausted exhausted).mono (by omega)
  · intro u returned more
    obtain ⟨extends', frame, whole⟩ := mapping.map_extends limine low live returned
    have fewer := extends'.card_absent (Spaces.root_of_some live) whole own
      fun q member => length_prefixes full member
    exact ⟨_, packs.trans more, by omega⟩

/-- All tables of an address space are there. -/
theorem Mapping.absent_eq_empty (mapping : Mapping boot s others spaces) (live : spaces pt = some space)
    (full : ∀ path ∈ paths, path.length = 3) (near : ∀ path ∈ paths, space.Near path) :
    absent (childAt boot s.mem) (frameOf boot pt) (prefixes 3 paths) = ∅ := by
  rw [absent, Finset.filter_eq_empty_iff]
  intro q member
  rcases (mem_prefixes full).mp member with rfl | ⟨p, inPaths, isPrefix⟩
  · exact Bool.false_ne_true
  · obtain ⟨frame, whole⟩ := mapping.reached_of_near live (near p inPaths)
    obtain ⟨n, reached⟩ := exists_of_follow_prefix isPrefix whole
    rw [reached]
    exact Bool.false_ne_true

/-- `vmm_init` takes the least free frame for each table of the kernel's address space; it fails
exactly if fewer frames are free. -/
theorem Mapping.vmmInit_demand (limine : boot.Limine) (layout : boot.Layout top)
    (mapping : Mapping boot s others spaces)
    (exact_paths : ∀ path, path ∈ paths ↔ boot.kernelSpace.Near path) :
    Meets (vmmInit boot s) (fun v => s.Packs v.machine (prefixes 3 paths).card)
      (s.Exhausted (prefixes 3 paths).card) := by
  have low : boot.UsableBelow (2 ^ 52) := layout.usableBelow.mono (by decide)
  have covered : boot.Covered paths :=
    fun page present => (exact_paths _).mpr ⟨page, rfl, present⟩
  have full : ∀ path ∈ paths, path.length = 3 := by
    intro path inPaths
    obtain ⟨page, rfl, -⟩ := (exact_paths path).mp inPaths
    exact length_upperPath page
  have positive : 1 ≤ (prefixes 3 paths).card :=
    Finset.card_pos.mpr ⟨[], Finset.mem_insert_self _ _⟩
  rw [vmmInit]
  apply ((mapping.newPt_meets limine).returned.mono (fun _ => id) fun e exhausted =>
    exhausted.mono positive).bind
  intro r found
  obtain ⟨kernelPT, t⟩ := r
  obtain ⟨returned, -, -, mappingT⟩ := found
  have start : TablesCounted boot (frameOf boot kernelPT) (prefixes 3 paths) s t :=
    mapping.newPt_counted limine returned
  -- The page table represents what was mapped so far, and its tables are counted.
  let invariant (space : Space) (u : Machine) : Prop :=
    Mapping boot u others (Function.update spaces kernelPT (some space)) ∧
      TablesCounted boot (frameOf boot kernelPT) (prefixes 3 paths) s u
  have turns : KernelTurns boot kernelPT paths invariant (s.Exhausted (prefixes 3 paths).card) := by
    intro space u physAddr virtAddr inside holds
    obtain ⟨mappingU, counted⟩ := holds
    have live : Function.update spaces kernelPT (some space) kernelPT = some space :=
      Function.update_self kernelPT _ spaces
    apply (mappingU.map_counted limine low full live physAddr virtAddr _ inside counted).of_returned
    intro v mapped counted
    have mappingV := ((mappingU.map_meets limine low live physAddr virtAddr _).of_ok mapped).2
    rw [Function.update_idem] at mappingV
    exact ⟨mappingV, counted⟩
  apply (turns.entries layout covered ⟨mappingT, start⟩).bind
  intro u holds
  have size := layout.kernelSize_lt
  have kernel := turns.range boot.physicalBase boot.virtualBase
    (show boot.kernelSize.toNat + 4096 ≤ 2 ^ 64 by omega)
    (fun j inside => covered _ (Space.mapKernel_inside boot.directSpace inside)) holds
  apply kernel.bind
  intro v holds
  obtain ⟨mappingV, count, packs, sum⟩ := holds
  have none := mappingV.absent_eq_empty (Function.update_self kernelPT _ spaces) full
    fun path inPaths => (exact_paths path).mp inPaths
  rw [none, Finset.card_empty, Nat.add_zero] at sum
  exact sum ▸ packs

/-! ## The boot -/

/-- `kheap_init` returns exactly if there is a run of 16 free pages. -/
theorem kheapInit_demand (boot : Boot) (sized : s.Sized) :
    Meets (kheapInit boot pmmAlloc s) (fun _ => ∃ b, s.FreeRun b 16)
      fun e => e = .panic "Out of Memory!" ∧ ¬ ∃ b, s.FreeRun b 16 := by
  apply ((pmmAlloc_meets kheapInitPages sized).mono (fun _ => id) fun e fault => ?_).bind
  · intro r found
    obtain ⟨base, ⟨-, run, -⟩, -⟩ := found
    exact ⟨base.toNat, run⟩
  · obtain ⟨panic, none⟩ := fault.of_pos (by decide)
    refine ⟨panic, fun some => ?_⟩
    obtain ⟨b, run⟩ := some
    exact none b run

/-- There are 16 allocatable frames in a row with enough allocatable frames below them. -/
def BootRoom (boot : Boot) (s : Machine) (tables : Nat) : Prop :=
  ∃ b, (∀ p, b ≤ p → p < b + 16 → s.Allocatable boot p) ∧
    AtLeast tables fun p => s.Allocatable boot p ∧ p < b

/-- When `pmm_init` returns, the free frames are the allocatable ones. -/
theorem free_iff_allocatable (owns : s.Owns boot fun _ => False) : s.Free = s.Allocatable boot := by
  funext p
  apply propext
  constructor
  · rintro ⟨tracked, free⟩
    by_contra reserved
    exact free ((owns.bits p tracked).mpr (Or.inl reserved))
  · intro allocatable
    have tracked := owns.tracked p allocatable.1
    refine ⟨tracked, fun allocated => ?_⟩
    rcases (owns.bits p tracked).mp allocated with reserved | none
    · exact reserved allocatable
    · exact none

/-- After `pmm_init` the other memory managers are initialised if there is room, and the page frame
allocator panics otherwise. -/
theorem startMemory_meets (limine : boot.Limine) (layout : boot.Layout top)
    (exact_paths : ∀ path, path ∈ paths ↔ boot.kernelSpace.Near path)
    (pmm : pmmInit boot (Machine.start mem) = .ok s) :
    Meets (startMemory boot mem) (fun _ => BootRoom boot s (prefixes 3 paths).card)
      fun e => e = .panic "Out of Memory!" ∧ ¬ BootRoom boot s (prefixes 3 paths).card := by
  have owns := (Owned.init pmm).owns limine
  have free := free_iff_allocatable owns
  have demand := owns.mapping.vmmInit_demand limine layout exact_paths
  rw [startMemory, pmm, ok_bind]
  apply (demand.mono (fun _ => id) fun e exhausted => ?_).bind
  · intro v packs
    have sized : v.machine.Sized := by
      rw [Machine.Sized, packs.size]
      exact owns.sized
    -- The runs that `kheap_init` finds are those with enough frames below them.
    have runs : (∃ b, v.machine.FreeRun b 16) ↔ BootRoom boot s (prefixes 3 paths).card := by
      have room (b : Nat) : v.machine.FreeRun b 16 ↔
          (∀ p, b ≤ p → p < b + 16 → s.Free p) ∧ _ := packs.free.run_iff (by decide)
      rw [free] at room
      exact exists_congr room
    have heap := kheapInit_demand boot sized
    rw [runs] at heap
    exact heap.bind fun h room => room
  · refine ⟨exhausted.1, fun room => exhausted.2 ?_⟩
    obtain ⟨b, -, below⟩ := room
    apply below.mono le_rfl
    intro p both
    rw [free]
    exact both.1

/-- Where there is room the boot succeeds. -/
theorem startMemory_returns (limine : boot.Limine) (layout : boot.Layout top)
    (exact_paths : ∀ path, path ∈ paths ↔ boot.kernelSpace.Near path)
    (pmm : pmmInit boot (Machine.start mem) = .ok s)
    (room : BootRoom boot s (prefixes 3 paths).card) : ∃ v h, startMemory boot mem = .ok (v, h) := by
  have boots := startMemory_meets limine layout exact_paths pmm
  obtain ⟨r, returned, -⟩ := (boots.mono (fun _ => id) fun e failed => failed.2 room).returns
  exact ⟨r.1, r.2, returned⟩

/-- Boot: after `pmm_init` the other memory managers are initialised exactly if 16 allocatable
frames in a row lie above as many allocatable frames as the kernel's address space has tables;
otherwise the page frame allocator panics. -/
theorem kernel_boots_iff (limine : boot.Limine) (layout : boot.Layout top)
    (exact_paths : ∀ path, path ∈ paths ↔ boot.kernelSpace.Near path)
    (pmm : pmmInit boot (Machine.start mem) = .ok s) :
    ((∃ v h, startMemory boot mem = .ok (v, h)) ↔ BootRoom boot s (prefixes 3 paths).card) ∧
      ∀ e, startMemory boot mem = .error e → e = .panic "Out of Memory!" := by
  have boots := startMemory_meets limine layout exact_paths pmm
  refine ⟨⟨?_, startMemory_returns limine layout exact_paths pmm⟩, fun e failed => ?_⟩
  · rintro ⟨v, h, returned⟩
    exact boots.of_ok returned
  · exact (boots.of_error failed).1

end Demand

/-! ## A memory map with room for the boot -/

/-- The direct map of the memory map and the kernel do not overlap. -/
theorem heapBoot_layout : heapBoot.Layout 0x40000 where
  offset := by decide
  physicalBase := by decide
  virtualBase := by decide
  positive := by decide
  low := by decide
  entries := by decide
  apart a o below inside := by
    have offset : heapBoot.offset.toNat = 0xffff800000000000 := rfl
    have virtualBase : heapBoot.virtualBase.toNat = 0xffffffff80000000 := rfl
    have size : heapBoot.kernelSize.toNat = 0x1000 := rfl
    omega

/-- The upper paths of the direct map and of the kernel. -/
def heapBootPaths : Finset (List (Fin 512)) :=
  {upperPath (pageNumber heapBoot.offset), upperPath (pageNumber heapBoot.virtualBase)}

/-- The direct map and the kernel have a path each. -/
theorem heapBoot_near (path : List (Fin 512)) :
    path ∈ heapBootPaths ↔ heapBoot.kernelSpace.Near path := by
  have offset : heapBoot.offset.toNat = 0xffff800000000000 := rfl
  have virtualBase : heapBoot.virtualBase.toNat = 0xffffffff80000000 := rfl
  have size : heapBoot.kernelSize.toNat = 0x1000 := rfl
  have directPath (p : Nat) (below : 4096 * p < 0x40000) :
      upperPath (pageNumber (tablePointer heapBoot p)) = [256, 0, 0] := by
    have number := toNat_pageNumber_direct heapBoot_layout.offset (show p < 2 ^ 52 by omega)
    rw [offset] at number
    apply upperPath_eq number <;> omega
  have kernelPath (o : UInt64) (inside : o < heapBoot.kernelSize) :
      upperPath (pageNumber (heapBoot.virtualBase + o)) = [511, 510, 0] := by
    rw [UInt64.lt_iff_toNat_lt, size] at inside
    have number := toNat_pageNumber_add heapBoot_layout.virtualBase o
    rw [virtualBase] at number
    apply upperPath_eq number <;> omega
  have inside : (0 : UInt64) < heapBoot.kernelSize := by decide
  have directStart := directPath 0 (by decide)
  have kernelStart := kernelPath 0 inside
  have sum : tablePointer heapBoot 0 = heapBoot.offset := rfl
  rw [UInt64.add_zero] at kernelStart
  rw [sum] at directStart
  rw [heapBootPaths, Finset.mem_insert, Finset.mem_singleton, directStart, kernelStart]
  constructor
  · rintro (rfl | rfl)
    · have entry : (⟨0x1000, 0x3f000, .usable⟩ : LimineMemmapEntry) ∈ heapBoot.entries := by decide
      have shown := heapBoot_layout.foldl_maps (fun e is => is) (fun _ => Leaf.zero) entry
        (by decide) ⟨by decide, by decide⟩ (by decide : 2 ≠ 0)
      refine ⟨_, directPath 2 (by decide), ?_⟩
      rw [Boot.kernelSpace, heapBoot_layout.kernel_apart _ (by decide), Boot.directSpace, shown]
      rfl
    · refine ⟨_, kernelPath 0 inside, ?_⟩
      rw [Boot.kernelSpace, heapBoot_layout.kernel_inside _ inside]
      rfl
  · rintro ⟨page, rfl, present⟩
    cases kernel_cases heapBoot heapBoot.directSpace page with
    | inr inside =>
      obtain ⟨o, inside, rfl⟩ := inside
      exact Or.inr (kernelPath o inside)
    | inl kept =>
      left
      rw [Boot.kernelSpace, kept] at present
      cases heapBoot_layout.foldl_cases (fun e is => is) (fun _ => Leaf.zero) page with
      | inl zero =>
        rw [Boot.directSpace, zero] at present
        cases present
      | inr shown =>
        obtain ⟨p, -, below, rfl, -⟩ := shown
        exact directPath p below

/-- There is room for the seven tables of the kernel's address space and for the heap. -/
theorem heapBoot_room (pmm : pmmInit heapBoot (Machine.start zeroMemory) = .ok s) :
    BootRoom heapBoot s (prefixes 3 heapBootPaths).card := by
  have tables : (prefixes 3 heapBootPaths).card = 7 := by decide +kernel
  rw [tables]
  obtain ⟨s', returned, free⟩ := heapBoot_returns
  rw [pmm, Except.ok.injEq] at returned
  rw [← returned] at free
  have same := free_iff_allocatable ((Owned.init pmm).owns heapBoot_limine)
  refine ⟨9, fun p lower upper => ?_, List.range' 2 7, List.nodup_range', by decide, ?_⟩
  · rw [← same]
    exact free p (by omega) (by omega)
  · intro p member
    rw [List.mem_range'_1] at member
    rw [← same]
    exact ⟨free p (by omega) (by omega), by omega⟩

/-- On the memory map the boot succeeds. -/
theorem kernel_boots_iff_heapBoot : ∃ v h, startMemory heapBoot zeroMemory = .ok (v, h) := by
  obtain ⟨s, pmm, -⟩ := heapBoot_returns
  have boots := kernel_boots_iff heapBoot_limine heapBoot_layout heapBoot_near pmm
  exact boots.1.mpr (heapBoot_room pmm)

end Symphony
