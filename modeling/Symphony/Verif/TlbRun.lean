import Symphony.Verif.Tlb

/-!
# Runs with cached translations

Every address translates as the active page table says, whatever the processor cached before, as
long as the calls for its pages are harmless; a call that is not may leave a stale translation.
-/

namespace Symphony

variable {boot : Boot} {k k' : Kernel} {mem : Memory} {spaces : Spaces} {space : Space}
  {pt virtAddr : UInt64} {u : Mmu}

/-! ## Runs with a cache -/

/-- States that the kernel and the processor reach together: the processor fills its cache and
evicts what it likes, the kernel switches to live page tables, never destroys the active one, and
its calls for pages of the active one are harmless. -/
inductive TlbRun (boot : Boot) (mem : Memory) : Kernel → Mmu → Prop
  /-- The memory managers are initialised; `vmm_init` ends with a switch. -/
  | boot {s : Machine} {v : Vmm} {h : Kheap} (pmm : pmmInit boot (Machine.start mem) = .ok s)
    (vmm : vmmInit boot s = .ok v) (kheap : kheapInit boot pmmAlloc v.machine = .ok h) :
    TlbRun boot mem (.booted boot v.kernelPT h) ⟨v.kernelPT, fun _ => none⟩
  /-- The processor fills and evicts. -/
  | fill {k : Kernel} {u : Mmu} {tlb : Cache (BitVec 36) (Option Translation)}
    (before : TlbRun boot mem k u)
    (settles : Cache.Settles Cachable (translations boot k.machine.mem u.root) u.tlb tlb) :
    TlbRun boot mem k { u with tlb }
  /-- A call of `arch_vmm_switch`. -/
  | switch {k : Kernel} {u : Mmu} {pt : UInt64} {space : Space} (before : TlbRun boot mem k u)
    (live : k.spaces pt = some space) : TlbRun boot mem k ⟨pt, fun _ => none⟩
  /-- A call that changes the entry of a page; the processor fills and evicts between its stores. -/
  | table {k k' : Kernel} {u : Mmu} {pt virtAddr : UInt64} {op : TableOp} {space : Space}
    {groups : List (List PteStore)} {steps : List Machine}
    {tlb : Cache (BitVec 36) (Option Translation)} (before : TlbRun boot mem k u)
    (live : k.spaces pt = some space)
    (returned : (KernelOp.table pt virtAddr op).perform boot k = .ok k')
    (all : groups.flatten = op.stores)
    (stored : TableOp.stages boot pt virtAddr groups k.machine = .ok steps)
    (passes : Cache.Passes Cachable
      ((k.machine :: steps).map fun t => translations boot t.mem u.root) u.tlb tlb)
    (harmless : u.root = pt → op.Harmless virtAddr groups (space (pageNumber virtAddr))) :
    TlbRun boot mem k' { u with tlb := op.invalidate virtAddr tlb }
  /-- Another operation. -/
  | other {k k' : Kernel} {u : Mmu} {op : KernelOp} (before : TlbRun boot mem k u)
    (allowed : op.Allowed boot k) (returned : op.perform boot k = .ok k')
    (notTable : ∀ pt virtAddr change, op ≠ .table pt virtAddr change)
    (keeps : op ≠ .destroy u.root) : TlbRun boot mem k' u

/-- What the cache holds is what a walk of the active page table finds, and that page table is
live. -/
structure Mmu.Coherent (boot : Boot) (k : Kernel) (u : Mmu) : Prop where
  /-- The active page table is live. -/
  live : ∃ space, k.spaces u.root = some space
  /-- The cache is coherent. -/
  tlb : u.tlb.Coherent Cachable (translations boot k.machine.mem u.root)

/-- Operations other than a destruction and those on entries leave the space of a live page table. -/
theorem KernelOp.spaces_eq (limine : boot.Limine) (isolated : k.Isolated boot) {op : KernelOp}
    (returned : op.perform boot k = .ok k')
    (notTable : ∀ pt virtAddr change, op ≠ .table pt virtAddr change) (keeps : op ≠ .destroy pt)
    (live : k.spaces pt = some space) : k'.spaces pt = some space := by
  cases op with
  | table pt virtAddr change => exact absurd rfl (notTable pt virtAddr change)
  | heap c =>
    simp only [perform, bind_eq_ok] at returned
    obtain ⟨session, -, same⟩ := returned
    cases same
    exact live
  | newPt =>
    simp only [perform, bind_eq_ok] at returned
    obtain ⟨⟨new, s⟩, created, same⟩ := returned
    have isNew : k.spaces new = none :=
      ((isolated.mapping.newPt_meets limine).of_ok created).1
    cases same
    have other : pt ≠ new := by
      rintro rfl
      rw [isNew] at live
      cases live
    exact (Function.update_of_ne other _ _).trans live
  | destroy gone =>
    simp only [perform, bind_eq_ok] at returned
    obtain ⟨s, -, same⟩ := returned
    cases same
    have other : pt ≠ gone := fun same => keeps (congrArg _ same.symm)
    exact (Function.update_of_ne other _ _).trans live
  | alloc pages =>
    simp only [perform, bind_eq_ok] at returned
    obtain ⟨⟨base, s⟩, -, same⟩ := returned
    cases same
    exact live
  | free base pages =>
    simp only [perform, bind_eq_ok] at returned
    obtain ⟨s, -, same⟩ := returned
    cases same
    exact live
  | write a v =>
    cases returned
    exact live

/-- A call for a live page table leaves the cache coherent, whatever the processor took up between
its stores, exactly if the page table is not the active one or the call is harmless. -/
theorem Mmu.Coherent.call_iff (limine : boot.Limine) (low : boot.UsableBelow (2 ^ 52))
    (isolated : k.Isolated boot) (coherent : u.Coherent boot k) (live : k.spaces pt = some space)
    {op : TableOp} (returned : (KernelOp.table pt virtAddr op).perform boot k = .ok k')
    {groups : List (List PteStore)} {steps : List Machine}
    (stored : TableOp.stages boot pt virtAddr groups k.machine = .ok steps) :
    (∀ tlb, Cache.Passes Cachable
        ((k.machine :: steps).map fun t => translations boot t.mem u.root) u.tlb tlb →
      Mmu.Coherent boot k' { u with tlb := op.invalidate virtAddr tlb }) ↔
    (u.root = pt → op.Harmless virtAddr groups (space (pageNumber virtAddr))) := by
  obtain ⟨active, isActive⟩ := coherent.live
  simp only [KernelOp.perform, bind_eq_ok] at returned
  obtain ⟨t, ran, same⟩ := returned
  rw [← isolated.mapping.coherent_iff limine low live isActive stored ran coherent.tlb]
  cases same
  constructor
  · exact fun coherent tlb passes => (coherent tlb passes).tlb
  · refine fun coherent tlb passes => ⟨?_, coherent tlb passes⟩
    rw [live, Option.map_some, TableOp.change_eq]
    exact ⟨_, update_root live isActive _⟩

/-- In every run the kernel runs, and the cache is coherent. -/
theorem TlbRun.coherent {top : Nat} (limine : boot.Limine) (layout : boot.Layout top)
    (direct : boot.Direct) (run : TlbRun boot mem k u) :
    KernelRun boot mem k ∧ u.Coherent boot k := by
  induction run with
  | @boot s v h pmm vmm kheap =>
    have live : (Kernel.booted boot v.kernelPT h).spaces v.kernelPT = some boot.kernelSpace := by
      simp only [Kernel.booted, Function.update_self]
    exact ⟨.boot pmm vmm kheap, ⟨_, live⟩, Cache.coherent_empty _⟩
  | fill before settles ih => exact ⟨ih.1, ih.2.live, ih.2.tlb.settles settles⟩
  | switch before live ih => exact ⟨ih.1, ⟨_, live⟩, Cache.coherent_empty _⟩
  | @table k k' u pt virtAddr op space groups steps tlb before live returned all stored passes
      harmless ih =>
    have isolated := ih.1.isolated limine layout direct
    have allowed : (KernelOp.table pt virtAddr op).Allowed boot k := ⟨space, live⟩
    have exactly := ih.2.call_iff limine (layout.usableBelow.mono (by decide)) isolated live returned
      stored
    exact ⟨ih.1.step allowed returned, exactly.mpr harmless tlb passes⟩
  | other before allowed returned notTable keeps ih =>
    have isolated := ih.1.isolated limine layout direct
    have run' := ih.1.step allowed returned
    obtain ⟨active, isActive⟩ := ih.2.live
    have stays := KernelOp.spaces_eq limine isolated returned notTable keeps isActive
    refine ⟨run', ⟨active, stays⟩, ?_⟩
    have same := (run'.isolated limine layout direct).mapping.translations_eq stays
    rw [same, ← isolated.mapping.translations_eq isActive]
    exact ih.2.tlb

/-- A coherent cache changes no translation. -/
theorem Mmu.Coherent.translate_eq (coherent : u.Coherent boot k) (virtAddr : UInt64) :
    u.translate boot k.machine.mem virtAddr = walk boot k.machine.mem u.root virtAddr := by
  rw [translate]
  cases cached : u.tlb (pageNumber virtAddr) with
  | none => rfl
  | some found => exact (coherent.tlb _ _ cached).2.symm

/-! ## Harmless calls -/

namespace TableOp

/-- If a call makes one store, it is harmless where it invalidates its page, or the page was not
present, or nothing changes. -/
theorem harmless_once (op : TableOp) (virtAddr : UInt64) (leaf : Leaf) :
    op.Harmless virtAddr [op.stores] leaf ↔
      op.Invalidates virtAddr ∨ leaf.present = false ∨ op.leaf leaf = leaf := by
  have stages : PteStore.leafStages [op.stores] leaf = [op.leaf leaf] := rfl
  rw [Harmless, stages]
  simp only [List.mem_cons, List.not_mem_nil, or_false, forall_eq_or_imp, forall_eq, implies_true,
    and_true]
  cases leaf.present <;> simp [eq_comm]

/-- If every assignment is a store of its own, mapping a page that is not present is harmless
exactly if it is not present afterwards either, or the entry has the permissions already: the
entry becomes present before it gets them. -/
theorem harmless_each {leaf : Leaf} (absent : leaf.present = false) (physAddr virtAddr : UInt64)
    (flags : Int32) :
    (map physAddr flags).Harmless virtAddr ((map physAddr flags).stores.map ([·])) leaf ↔
      (leaf.withFlags flags).present = false ∨
        leaf.withFlags flags = { leaf with present := true } := by
  obtain ⟨frame, present, readWrite, userSupervisor, nx⟩ := leaf
  have absent : present = false := absent
  subst absent
  simp only [Harmless, Invalidates, reduceCtorEq, false_and, false_or, TableOp.leaf, stores, flagStores,
    Leaf.withFlags]
  generalize decide (flags &&& vmmPresent ≠ 0) = isPresent
  simp only [List.map_cons, List.map_nil, PteStore.leafStages, PteStore.leaves, List.foldl_cons,
    List.foldl_nil, PteStore.leaf, List.mem_cons, List.not_mem_nil, or_false, forall_eq_or_imp,
    forall_eq]
  cases isPresent with
  | false => simp
  | true => simp [eq_comm]

/-- A call is harmless in every compilation exactly if it is harmless where every assignment is a
store of its own. -/
theorem harmless_all_iff (op : TableOp) (virtAddr : UInt64) (leaf : Leaf) :
    (∀ groups, groups.flatten = op.stores → op.Harmless virtAddr groups leaf) ↔
      op.Harmless virtAddr (op.stores.map ([·])) leaf := by
  constructor
  · intro always
    apply always
    rw [← List.flatMap_def, List.flatMap_singleton']
  · rintro harmless groups all
    refine harmless.imp_right fun current l member present => ?_
    cases List.mem_cons.mp member with
    | inl first => exact current l (List.mem_cons.mpr (Or.inl first)) present
    | inr later =>
      obtain ⟨made, isPrefix, rfl⟩ := PteStore.prefix_of_mem later
      rw [all] at isPrefix
      exact current _ (PteStore.mem_of_prefix isPrefix) present

end TableOp

/-! ## A run on the memory map -/

/-- The kernel starts on the memory map. -/
theorem heapBoot_started : ∃ k u, TlbRun heapBoot zeroMemory k u ∧
    k.spaces u.root = some heapBoot.kernelSpace := by
  obtain ⟨s, pmm, -⟩ := heapBoot_returns
  obtain ⟨v, h, started⟩ := startMemory_returns heapBoot_limine heapBoot_layout heapBoot_near pmm
    (heapBoot_room pmm)
  obtain ⟨s, pmm, vmm, kheap⟩ := startMemory_eq_ok started
  exact ⟨_, _, .boot pmm vmm kheap, by simp only [Kernel.booted, Function.update_self]⟩

/-- The tables of a present page exist. -/
theorem Mapping.reached_of_present {s : Machine} {others : Nat → Prop}
    (mapping : Mapping boot s others spaces) (live : spaces pt = some space) {page : BitVec 36}
    (present : (space page).present = true) :
    ∃ frame, follow (childAt boot s.mem) (frameOf boot pt) (upperPath page) = some frame := by
  have leaf := mapping.leaves pt space live page
  rw [lookup] at leaf
  cases reached : follow (childAt boot s.mem) (frameOf boot pt) (upperPath page) with
  | some frame => exact ⟨frame, rfl⟩
  | none =>
    rw [reached] at leaf
    rw [← leaf] at present
    cases present

/-- Where the tables exist, `arch_vmm_map` returns. -/
theorem Kernel.Isolated.map_returns (limine : boot.Limine) (isolated : k.Isolated boot)
    (live : k.spaces pt = some space) {frame : Nat}
    (reached : follow (childAt boot k.machine.mem) (frameOf boot pt)
      (upperPath (pageNumber virtAddr)) = some frame) (physAddr : UInt64) (flags : Int32) :
    ∃ t k', (TableOp.map physAddr flags).run boot pt virtAddr k.machine = .ok t ∧
      (KernelOp.table pt virtAddr (.map physAddr flags)).perform boot k = .ok k' := by
  obtain ⟨t, returned, -⟩ :=
    (isolated.mapping.map_of_reached limine live physAddr reached flags).returns
  have performed : ∃ k',
      (KernelOp.table pt virtAddr (.map physAddr flags)).perform boot k = .ok k' := by
    rw [KernelOp.perform, TableOp.run, returned]
    exact ⟨_, rfl⟩
  obtain ⟨k', performed⟩ := performed
  exact ⟨t, k', returned, performed⟩

/-- The first page of the kernel is mapped on the memory map. -/
theorem heapBoot_kernelPage : heapBoot.kernelSpace (pageNumber heapBoot.virtualBase) =
    kernelLeaf 0x100 := by
  have inside := heapBoot_layout.kernel_inside heapBoot.directSpace (o := 0) (by decide)
  rw [UInt64.add_zero] at inside
  exact inside

/-- The page after the kernel is not mapped on the memory map. -/
theorem heapBoot_nextPage : heapBoot.kernelSpace (pageNumber (heapBoot.virtualBase + 0x1000)) =
    .zero := by
  have virtualBase : heapBoot.virtualBase.toNat = 0xffffffff80000000 := rfl
  have offset : heapBoot.offset.toNat = 0xffff800000000000 := rfl
  have size : heapBoot.kernelSize.toNat = 0x1000 := rfl
  have page : (0x1000 : UInt64).toNat = 0x1000 := rfl
  have number (o : UInt64) := toNat_pageNumber_add heapBoot_layout.virtualBase o
  cases kernel_cases heapBoot heapBoot.directSpace (pageNumber (heapBoot.virtualBase + 0x1000)) with
  | inr inside =>
    obtain ⟨o, inside, same⟩ := inside
    rw [UInt64.lt_iff_toNat_lt, size] at inside
    have numbers := congrArg BitVec.toNat same
    rw [number, number] at numbers
    omega
  | inl kept =>
    rw [Boot.kernelSpace, kept, Boot.directSpace]
    cases heapBoot_layout.foldl_cases (fun e is => is) (fun _ => Leaf.zero)
      (pageNumber (heapBoot.virtualBase + 0x1000)) with
    | inl zero => exact zero
    | inr shown =>
      obtain ⟨p, -, below, same, -⟩ := shown
      have direct := toNat_pageNumber_direct heapBoot_layout.offset (show p < 2 ^ 52 by omega)
      have numbers := congrArg BitVec.toNat same
      rw [number, direct] at numbers
      omega

/-! ## Translation in every run -/

/-- Translation: in every run the active page table is live, and every address translates as the
space of this page table says, whether the processor has its page cached or not. -/
theorem tlb_coherent {top : Nat} (limine : boot.Limine) (layout : boot.Layout top)
    (direct : boot.Direct) (run : TlbRun boot mem k u) :
    ∃ space, k.spaces u.root = some space ∧ ∀ virtAddr,
      u.translate boot k.machine.mem virtAddr = some (space (pageNumber virtAddr)).alone := by
  have both := run.coherent limine layout direct
  obtain ⟨space, live⟩ := both.2.live
  have mapping := (both.1.isolated limine layout direct).mapping
  refine ⟨space, live, fun virtAddr => ?_⟩
  rw [both.2.translate_eq, mapping.walk_eq live]

/-- A run on the memory map in which the first page of the kernel is cached. -/
theorem tlb_coherent_heapBoot : ∃ k u, TlbRun heapBoot zeroMemory k u ∧
    u.tlb (pageNumber heapBoot.virtualBase) = some (some (kernelLeaf 0x100).alone) ∧
    ∃ space, k.spaces u.root = some space ∧ ∀ virtAddr, u.translate heapBoot k.machine.mem virtAddr =
      some (space (pageNumber virtAddr)).alone := by
  obtain ⟨k, u, run, live⟩ := heapBoot_started
  have isolated := (run.coherent heapBoot_limine heapBoot_layout heapBoot_direct).1.isolated
    heapBoot_limine heapBoot_layout heapBoot_direct
  have walked := congrFun (isolated.mapping.translations_eq live) (pageNumber heapBoot.virtualBase)
  rw [heapBoot_kernelPage] at walked
  have may : Cachable
      (translations heapBoot k.machine.mem u.root (pageNumber heapBoot.virtualBase)) := by
    rw [walked]
    exact (cachable_alone _).mpr rfl
  have run := run.fill (Cache.settles_update may u.tlb)
  rw [walked] at run
  exact ⟨k, _, run, by simp only [Function.update_self],
    tlb_coherent heapBoot_limine heapBoot_layout heapBoot_direct run⟩

/-- Exactness: a call for a live page table leaves the cache coherent, whatever the processor took
up between its stores, exactly if the page table is not the active one or the call is harmless. -/
theorem tlb_coherent_iff {top : Nat} (limine : boot.Limine) (layout : boot.Layout top)
    (direct : boot.Direct) (run : TlbRun boot mem k u) {op : TableOp}
    (live : k.spaces pt = some space)
    (returned : (KernelOp.table pt virtAddr op).perform boot k = .ok k')
    {groups : List (List PteStore)} {steps : List Machine}
    (stored : TableOp.stages boot pt virtAddr groups k.machine = .ok steps) :
    (∀ tlb, Cache.Passes Cachable
        ((k.machine :: steps).map fun t => translations boot t.mem u.root) u.tlb tlb →
      Mmu.Coherent boot k' { u with tlb := op.invalidate virtAddr tlb }) ↔
    (u.root = pt → op.Harmless virtAddr groups (space (pageNumber virtAddr))) := by
  have both := run.coherent limine layout direct
  have isolated := both.1.isolated limine layout direct
  exact both.2.call_iff limine (layout.usableBelow.mono (by decide)) isolated live returned stored

/-- On the memory map the first page of the kernel is mapped elsewhere; its old translation may stay
in the cache. -/
theorem tlb_coherent_iff_heapBoot : ∃ k u k' steps tlb, TlbRun heapBoot zeroMemory k u ∧
    (KernelOp.table u.root heapBoot.virtualBase (.map 0x5000 3)).perform heapBoot k = .ok k' ∧
    TableOp.stages heapBoot u.root heapBoot.virtualBase [(TableOp.map 0x5000 3).stores] k.machine =
      .ok steps ∧
    Cache.Passes Cachable
      ((k.machine :: steps).map fun t => translations heapBoot t.mem u.root) u.tlb tlb ∧
    ¬ Mmu.Coherent heapBoot k' { u with tlb } := by
  obtain ⟨k, u, run, live⟩ := heapBoot_started
  have isolated := (run.coherent heapBoot_limine heapBoot_layout heapBoot_direct).1.isolated
    heapBoot_limine heapBoot_layout heapBoot_direct
  have present : (heapBoot.kernelSpace (pageNumber heapBoot.virtualBase)).present = true := by
    rw [heapBoot_kernelPage]
    rfl
  obtain ⟨frame, reached⟩ := isolated.mapping.reached_of_present live present
  obtain ⟨t, k', ran, returned⟩ := isolated.map_returns heapBoot_limine live reached 0x5000 3
  have all : [(TableOp.map 0x5000 3).stores].flatten = (TableOp.map 0x5000 3).stores := by
    rw [List.flatten_singleton]
  obtain ⟨steps, stored, -⟩ := isolated.mapping.stages_run heapBoot_limine
    (heapBoot_layout.usableBelow.mono (by decide)) live ran all
  have exactly := tlb_coherent_iff heapBoot_limine heapBoot_layout heapBoot_direct run live returned
    stored
  have harmful : ¬ (TableOp.map 0x5000 3).Harmless heapBoot.virtualBase
      [(TableOp.map 0x5000 3).stores] (kernelLeaf 0x100) := by
    rw [TableOp.harmless_once]
    rintro (unmap | absent | unchanged)
    · cases unmap.1
    · cases absent
    · exact absurd unchanged (by decide)
  rw [heapBoot_kernelPage] at exactly
  have stale := fun always => harmful (exactly.mp always rfl)
  obtain ⟨tlb, stale⟩ := not_forall.mp stale
  obtain ⟨passes, stale⟩ := Classical.not_imp.mp stale
  exact ⟨k, u, k', steps, tlb, run, returned, stored, passes, stale⟩

/-- Mapping: where a page of the active page table is not present, `arch_vmm_map` leaves the cache
coherent in every compilation exactly if the flags keep the page absent or the entry has the
permissions of the flags already, as it has after `arch_vmm_unmap`. -/
theorem map_absent_coherent_iff {top : Nat} (limine : boot.Limine) (layout : boot.Layout top)
    (direct : boot.Direct) (run : TlbRun boot mem k u) {physAddr : UInt64} {flags : Int32}
    (live : k.spaces u.root = some space) (absent : (space (pageNumber virtAddr)).present = false)
    (returned : (KernelOp.table u.root virtAddr (.map physAddr flags)).perform boot k = .ok k') :
    (∀ groups steps tlb, groups.flatten = (TableOp.map physAddr flags).stores →
      TableOp.stages boot u.root virtAddr groups k.machine = .ok steps →
      Cache.Passes Cachable
        ((k.machine :: steps).map fun t => translations boot t.mem u.root) u.tlb tlb →
      Mmu.Coherent boot k' { u with tlb }) ↔
    ((space (pageNumber virtAddr)).withFlags flags).present = false ∨
      (space (pageNumber virtAddr)).withFlags flags =
        { space (pageNumber virtAddr) with present := true } := by
  have both := run.coherent limine layout direct
  have low := layout.usableBelow.mono (show 2 ^ 51 ≤ 2 ^ 52 by decide)
  have isolated := both.1.isolated limine layout direct
  rw [← TableOp.harmless_each absent physAddr virtAddr flags, ← TableOp.harmless_all_iff]
  constructor
  · intro coherent groups all
    have ran := returned
    simp only [KernelOp.perform, bind_eq_ok] at ran
    obtain ⟨t, ran, -⟩ := ran
    obtain ⟨steps, stored, -⟩ := isolated.mapping.stages_run limine low live ran all
    have exactly := both.2.call_iff limine low isolated live returned stored
    exact exactly.mp (fun tlb passes => coherent groups steps tlb all stored passes) rfl
  · intro harmless groups steps tlb all stored passes
    have exactly := both.2.call_iff limine low isolated live returned stored
    exact exactly.mpr (fun _ => harmless groups all) tlb passes

/-- On the memory map the page after the kernel is mapped for writing: in some compilation the
processor may keep that it must not be written to. -/
theorem map_absent_coherent_iff_heapBoot : ∃ k u k', TlbRun heapBoot zeroMemory k u ∧
    (KernelOp.table u.root (heapBoot.virtualBase + 0x1000) (.map 0x5000 3)).perform heapBoot k =
      .ok k' ∧
    ¬ ∀ groups steps tlb, groups.flatten = (TableOp.map 0x5000 3).stores →
      TableOp.stages heapBoot u.root (heapBoot.virtualBase + 0x1000) groups k.machine = .ok steps →
      Cache.Passes Cachable
        ((k.machine :: steps).map fun t => translations heapBoot t.mem u.root) u.tlb tlb →
      Mmu.Coherent heapBoot k' { u with tlb } := by
  obtain ⟨k, u, run, live⟩ := heapBoot_started
  have isolated := (run.coherent heapBoot_limine heapBoot_layout heapBoot_direct).1.isolated
    heapBoot_limine heapBoot_layout heapBoot_direct
  have present : (heapBoot.kernelSpace (pageNumber heapBoot.virtualBase)).present = true := by
    rw [heapBoot_kernelPage]
    rfl
  obtain ⟨frame, reached⟩ := isolated.mapping.reached_of_present live present
  have samePath : upperPath (pageNumber (heapBoot.virtualBase + 0x1000)) =
      upperPath (pageNumber heapBoot.virtualBase) := by decide
  rw [← samePath] at reached
  obtain ⟨t, k', -, returned⟩ := isolated.map_returns heapBoot_limine live reached 0x5000 3
  have exactly := map_absent_coherent_iff heapBoot_limine heapBoot_layout heapBoot_direct run live
    (by rw [heapBoot_nextPage]; rfl) returned
  refine ⟨k, u, k', run, returned, ?_⟩
  rw [exactly, heapBoot_nextPage]
  decide

end Symphony
