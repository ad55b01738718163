import Symphony.Verif.KernelBoot
import Symphony.Verif.KernelReady

/-!
# Runs of the kernel

Every operation keeps the memory managers consistent, whichever operations came before it, and
an allowed operation returns unless there are too few free frames for it.
-/

namespace Symphony

variable {boot : Boot} {s s' : Machine} {k k' : Kernel} {mem : Memory} {spaces : Spaces}
  {space : Space} {others : Nat → Prop} {pt virtAddr : UInt64}

/-! ## Operations on the entry of a page -/

/-- An operation that returns changes one leaf. -/
theorem TableOp.step {op : TableOp} (space : Space) (returned : op.run boot pt virtAddr s = .ok s') :
    TableStep boot pt s space virtAddr s' (op.change (pageNumber virtAddr) space) := by
  cases op with
  | map physAddr flags => exact .map returned
  | unmap => exact .unmap returned
  | setFlags flags => exact .setFlags returned

/-- An operation changes one leaf and takes a frame for each table that is missing on the path of
the page; it fails exactly if fewer frames are free. -/
theorem Mapping.tableOp_meets (limine : boot.Limine) (low : boot.UsableBelow (2 ^ 52))
    (mapping : Mapping boot s others spaces) (live : spaces pt = some space) (op : TableOp) :
    Meets (op.run boot pt virtAddr s)
      (fun s' => s.Packs s' (missing (childAt boot s.mem) (frameOf boot pt)
          (upperPath (pageNumber virtAddr))) ∧
        Mapping boot s' others
          (Function.update spaces pt (some (op.change (pageNumber virtAddr) space))))
      (s.Exhausted (missing (childAt boot s.mem) (frameOf boot pt)
        (upperPath (pageNumber virtAddr)))) := by
  cases op with
  | map physAddr flags =>
    apply (mapping.map_demand limine low live physAddr virtAddr flags).of_returned
    intro s' returned packs
    exact ⟨packs, ((mapping.map_meets limine low live physAddr virtAddr flags).of_ok returned).2⟩
  | unmap =>
    apply (mapping.changePage_demand limine low live virtAddr _).of_returned
    intro s' returned packs
    exact ⟨packs, ((mapping.unmap_meets limine low live virtAddr).of_ok returned).2⟩
  | setFlags flags =>
    apply (mapping.changePage_demand limine low live virtAddr _).of_returned
    intro s' returned packs
    exact ⟨packs, ((mapping.setFlags_meets limine low live virtAddr flags).of_ok returned).2⟩

/-! ## What the operations keep -/

/-- Frames that were handed out beside the heap and the page tables. -/
def Kernel.rest (k : Kernel) (p : Nat) : Prop := k.drivers p ∨ k.leaked p

/-- The heap is sound beside the other owners. -/
structure Kernel.Isolated (boot : Boot) (k : Kernel) : Prop where
  /-- The heap and the page tables. -/
  heap : ∃ bs, Sound (KernelReady boot k.spaces k.rest k.stored) k.session bs
  /-- Other users hold no leaked frame. -/
  apart : ∀ p, k.drivers p → ¬ k.leaked p
  /-- They wrote to their own frames. -/
  mine : ∀ a v, k.stored a v → k.drivers (frameOf boot a)

/-- The operation returns and keeps the heap isolated, or it ends in the panic of the page frame
allocator; it does so exactly if there are too few free frames for it. -/
def KernelOp.Served (boot : Boot) (k : Kernel) (op : KernelOp) : Prop :=
  Meets (op.perform boot k) (fun k' => k'.Isolated boot ∧ ¬ op.Starves boot k)
    fun e => e = .panic "Out of Memory!" ∧ op.Starves boot k

namespace Kernel.Isolated

/-- The frames of the page tables and of the other users lie apart from the heap. -/
theorem ready (isolated : k.Isolated boot) :
    KernelReady boot k.spaces k.rest k.stored k.machine k.regions := by
  obtain ⟨bs, sound⟩ := isolated.heap
  exact sound.ready

/-- The page tables represent the address spaces. -/
theorem mapping (isolated : k.Isolated boot) :
    Mapping boot k.machine (fun p => k.rest p ∨ HeapFrame boot k.regions p) k.spaces :=
  isolated.ready.mapping

/-- A step of others leaves the heap sound. -/
theorem foreign (isolated : k.Isolated boot) {spaces' : Spaces} {rest' : Nat → Prop}
    {stored' : UInt64 → UInt8 → Prop}
    (spares : Machine.Spares boot (HeapFrame boot k.regions) k.machine s')
    (ready : KernelReady boot spaces' rest' stored' s' k.regions) :
    ∃ bs, Sound (KernelReady boot spaces' rest' stored') (k.withMachine s').session bs := by
  obtain ⟨bs, sound⟩ := isolated.heap
  refine ⟨bs, sound.foreign ?_ ready⟩
  exact Memory.Writes.mono spares fun a outside inside => outside inside.frame

/-- A step of the page tables leaves the heap isolated. -/
theorem tables (isolated : k.Isolated boot) {spaces' : Spaces}
    (mapping : Mapping boot s' (fun p => k.rest p ∨ HeapFrame boot k.regions p) spaces')
    (spares : Machine.Spares boot (fun p => k.rest p ∨ HeapFrame boot k.regions p) k.machine s') :
    Kernel.Isolated boot { k.withMachine s' with spaces := spaces' } := by
  have ready := isolated.ready
  have after : KernelReady boot spaces' k.rest k.stored s' k.regions := by
    apply ready.step mapping ready.apart spares
    intro a v knows
    have has := (ready.stored a v knows).1
    exact ⟨knows, has, Or.inl has⟩
  exact ⟨isolated.foreign (spares.mono fun p => Or.inr) after, isolated.apart, isolated.mine⟩

/-! ## The operations -/

/-- A new page table. -/
theorem newPt_served (limine : boot.Limine) (isolated : k.Isolated boot) :
    KernelOp.newPt.Served boot k := by
  have mapping := isolated.mapping
  apply (mapping.newPt_meets limine).returned.bind
  intro r found
  obtain ⟨pt, s⟩ := r
  obtain ⟨returned, -, -, after⟩ := found
  have spares := newTable_spares limine mapping.owns returned
  have enough := (newTable_packs limine mapping.owns returned).enough
  exact ⟨isolated.tables after (spares.mono fun p => Or.inl), not_not_intro enough⟩

/-- An operation on the entry of a page. -/
theorem table_served (limine : boot.Limine) (low : boot.UsableBelow (2 ^ 52))
    (isolated : k.Isolated boot) (live : k.spaces pt = some space) (op : TableOp) :
    (KernelOp.table pt virtAddr op).Served boot k := by
  have mapping := isolated.mapping
  apply (mapping.tableOp_meets limine low live op).returned.bind
  intro s found
  obtain ⟨returned, packs, after⟩ := found
  have spares := (TableOp.step space returned).rel limine low (spares_walkerStep limine _) mapping live
  rw [live]
  exact ⟨isolated.tables after spares, not_not_intro packs.enough⟩

/-- A destruction. -/
theorem destroy_served (limine : boot.Limine) (low : boot.UsableBelow (2 ^ 51))
    (direct : boot.Direct) (isolated : k.Isolated boot)
    (allowed : (KernelOp.destroy pt).Allowed boot k) : (KernelOp.destroy pt).Served boot k := by
  obtain ⟨⟨space, live⟩, unused⟩ := allowed
  have ready := isolated.ready
  have mapping := ready.mapping
  have maps (p : Nat) : k.MapsLow pt p ↔ space.HasLow p := by
    unfold Kernel.MapsLow
    rw [live]
    simp
  have removable : Removable boot k.machine k.spaces space := by
    intro p low
    obtain ⟨allocatable, notTable, -⟩ := unused p ((maps p).mpr low)
    exact ⟨allocatable, notTable⟩
  have destroyed := (mapping.destroy_meets limine low live removable).returned
  apply (destroyed.mono (fun _ => id) fun _ => False.elim).bind
  intro t found
  obtain ⟨returned, after, -⟩ := found
  have spares := mapping.destroy_spares limine low live removable returned
  have left := mapping.leftOver_iff limine low direct.visible live removable returned
  -- What is left beside the heap stays with the other users, or is leaked.
  have same : leftOver boot k.machine t (fun p => k.rest p ∨ HeapFrame boot k.regions p) k.spaces pt =
      fun p => (k.withoutSpace boot pt t).rest p ∨ HeapFrame boot k.regions p := by
    funext p
    have spared := fun mapped => (unused p mapped).2.2
    rw [left]
    change _ = (((k.drivers p ∧ ¬ k.MapsLow pt p) ∨ (k.leaked p ∧ ¬ k.MapsLow pt p) ∨ _) ∨ _)
    rw [maps] at spared ⊢
    unfold Kernel.rest
    apply propext
    tauto
  rw [same] at after
  have kept (p : Nat) (has : (k.withoutSpace boot pt t).rest p ∨ HeapFrame boot k.regions p) :
      ((k.rest p ∨ HeapFrame boot k.regions p) ∨ TableFrame boot k.machine.mem k.spaces p) ∧
        t.Allocated p :=
    ((congrFun same p).mpr has).1
  have apart (p : Nat) (table : UpperTable boot k.machine.mem (frameOf boot pt) p) :
      ¬ (k.rest p ∨ HeapFrame boot k.regions p) :=
    mapping.apart p (table.tableFrame live)
  refine ⟨⟨?_, ?_, fun a v knows => knows.2⟩, not_false⟩
  · apply isolated.foreign (spares.mono fun p inHeap => kept p (Or.inr inHeap))
    apply ready.step after _ spares
    · rintro a v ⟨knows, has⟩
      exact ⟨knows, Or.inl has, kept _ (Or.inl (Or.inl has))⟩
    · rintro p (has | lost | table) inHeap
      · exact ready.apart p (Or.inl has.1) inHeap
      · exact ready.apart p (Or.inr lost.1) inHeap
      · exact apart p table (Or.inr inHeap)
  · rintro p has (lost | table)
    · exact isolated.apart p has.1 lost.1
    · exact apart p table (Or.inl (Or.inl has.1))

/-- An allocation of another user. -/
theorem alloc_served (limine : boot.Limine) (isolated : k.Isolated boot) {pages : Int32}
    (positive : 0 < pages.toInt) : (KernelOp.alloc pages).Served boot k := by
  have ready := isolated.ready
  have mapping := ready.mapping
  have search : Meets (pmmAlloc pages k.machine) _ _ := mapping.owns.alloc limine
  apply (search.returned.mono (fun _ => id) fun e fails => fails.of_pos positive).bind
  intro r found
  obtain ⟨base, s⟩ := r
  obtain ⟨returned, -, fresh, -, -⟩ := found
  dsimp only at fresh
  obtain ⟨first, ⟨-, run, -⟩, -⟩ := (pmmAlloc_meets pages mapping.owns.sized).of_ok returned
  have spares := mapping.owns.alloc_spares limine returned
  have after := mapping.alloc limine returned
  have same : (fun p => (k.rest p ∨ HeapFrame boot k.regions p) ∨ PageRange base pages p) =
      fun p => ((k.drivers p ∨ PageRange base pages p) ∨ k.leaked p) ∨ HeapFrame boot k.regions p := by
    funext p
    unfold Kernel.rest
    apply propext
    tauto
  rw [same] at after
  refine ⟨⟨?_, ?_, fun a v knows => Or.inl (isolated.mine a v knows)⟩, fun starves => starves _ run⟩
  · apply isolated.foreign (spares.mono fun p inHeap => Or.inl (Or.inr inHeap))
    apply ready.step after _ spares
    · intro a v knows
      have has := isolated.mine a v knows
      exact ⟨knows, Or.inl (Or.inl has), Or.inl (Or.inl (Or.inl has))⟩
    · rintro p ((has | inRange) | lost) inHeap
      · exact ready.apart p (Or.inl has) inHeap
      · exact (fresh p inRange).2 (Or.inl (Or.inr inHeap))
      · exact ready.apart p (Or.inr lost) inHeap
  · rintro p (has | inRange) lost
    · exact isolated.apart p has lost
    · exact (fresh p inRange).2 (Or.inl (Or.inl (Or.inr lost)))

/-- A release of another user. -/
theorem free_served (limine : boot.Limine) (isolated : k.Isolated boot) {base : UInt64}
    {pages : Int32} (allowed : (KernelOp.free base pages).Allowed boot k) :
    (KernelOp.free base pages).Served boot k := by
  obtain ⟨aligned, count, small, mine⟩ := allowed
  have ready := isolated.ready
  have mapping := ready.mapping
  have held : ∀ p, PageRange base pages p → k.rest p ∨ HeapFrame boot k.regions p :=
    fun p inside => Or.inl (Or.inl (mine p inside))
  have released := mapping.owns.free limine aligned count fun p inside => Or.inl (held p inside)
  apply (released.returned.mono (fun _ => id) fun e fault => by omega).bind
  intro t found
  obtain ⟨returned, result⟩ := found
  have after := mapping.free limine aligned count held returned
  have inHeap_apart (p : Nat) (inHeap : HeapFrame boot k.regions p) : ¬ PageRange base pages p :=
    fun inside => ready.apart p (Or.inl (mine p inside)) inHeap
  have same : (fun p => (k.rest p ∨ HeapFrame boot k.regions p) ∧ ¬ PageRange base pages p) =
      fun p => ((k.drivers p ∧ ¬ PageRange base pages p) ∨ k.leaked p) ∨
        HeapFrame boot k.regions p := by
    funext p
    have apart := inHeap_apart p
    have lost : k.leaked p → ¬ PageRange base pages p :=
      fun lost inside => isolated.apart p (mine p inside) lost
    unfold Kernel.rest
    apply propext
    tauto
  rw [same] at after
  have spares : Machine.Spares boot (fun p => (k.rest p ∨ HeapFrame boot k.regions p) ∧
      ¬ PageRange base pages p) k.machine t := by
    apply result.1.writes.mono
    rintro a (inBitmap | inside) kept
    · exact mapping.not_other_of_inBitmap inBitmap kept.1
    · exact kept.2 inside
  refine ⟨⟨?_, fun p has => isolated.apart p has.1, fun a v knows => knows.2⟩, not_false⟩
  apply isolated.foreign (spares.mono fun p inHeap => ⟨Or.inr inHeap, inHeap_apart p inHeap⟩)
  apply ready.step after _ spares
  · rintro a v ⟨knows, has⟩
    exact ⟨knows, Or.inl has, Or.inl (Or.inl has.1), has.2⟩
  · exact fun p either => ready.apart p (either.imp_left And.left)

/-- A write of another user. -/
theorem write (limine : boot.Limine) (isolated : k.Isolated boot) {a : UInt64} (v : UInt8)
    (mine : k.drivers (frameOf boot a)) :
    Kernel.Isolated boot
      { k.withMachine { k.machine with mem := k.machine.mem.store8 a v } with
        stored := fun b w => if b = a then w = v else k.stored b w } := by
  have ready := isolated.ready
  have mapping := ready.mapping
  have writes := k.machine.mem.store8_writes a v
  have known : ∀ b w, (if b = a then w = v else k.stored b w) → k.drivers (frameOf boot b) := by
    intro b w knows
    by_cases here : b = a
    · exact here ▸ mine
    · rw [if_neg here] at knows
      exact isolated.mine b w knows
  refine ⟨isolated.foreign ?_ ⟨?_, ready.apart, ready.placed, ?_⟩, isolated.apart, known⟩
  · apply writes.mono
    rintro b rfl inHeap
    exact ready.apart _ (Or.inl mine) inHeap
  · apply mapping.write limine
    intro b area
    apply writes.byte_eq
    rintro rfl
    cases area with
    | inl inBitmap => exact mapping.not_other_of_inBitmap inBitmap (Or.inl (Or.inl mine))
    | inr table => exact mapping.apart _ table (Or.inl (Or.inl mine))
  · intro b w knows
    refine ⟨Or.inl (known b w knows), ?_⟩
    change (if b = a then w = v else k.stored b w) at knows
    change (if b = a then v else k.machine.mem.byte b) = w
    by_cases here : b = a
    · rw [if_pos here] at knows ⊢
      exact knows.symm
    · rw [if_neg here] at knows ⊢
      exact (ready.stored b w knows).2

end Kernel.Isolated

/-- `kmalloc` returns exactly where a block has room or a run of free pages is long enough for a new
region; otherwise the page frame allocator panics. -/
theorem Sound.kmalloc_served {Ready : Machine → List Region → Prop} {t : Session} {bs : List Block}
    (sound : Sound Ready t bs) (fresh : PageSource.Fresh boot pmmAlloc Ready)
    (sized : t.heap.machine.Sized) {size : UInt64} (small : size.toNat ≤ 2 ^ 42) :
    Meets (kmalloc boot pmmAlloc size t.heap)
      (fun _ => ¬ (HeapCall.kmalloc size).Starves t.heap)
      fun e => e = .panic "Out of Memory!" ∧ (HeapCall.kmalloc size).Starves t.heap := by
  have rounded := kmallocRound_of_le small
  have bounded : (kmallocRound size).toNat + 32 ≤ 2 ^ 43 - 4096 := by omega
  have positive := (extendBytes_of_le bounded).1
  have search := pmmAlloc_meets (extendPages (kmallocRound size)) sized
  cases run : kmalloc boot pmmAlloc size t.heap with
  | ok out =>
    rintro ⟨cs, listed, unfit, noRun⟩
    cases obtained : pmmAlloc (extendPages (kmallocRound size)) t.heap.machine with
    | error e =>
      rw [listed.kmalloc_halts unfit obtained] at run
      cases run
    | ok frames =>
      obtain ⟨base, ⟨-, free, -⟩, -⟩ := search.of_ok obtained
      exact noRun _ free
  | error e =>
    have unfit : ∀ b ∈ bs, ¬ b.Suits (kmallocRound size) := by
      intro b inList fit
      obtain ⟨h', cs, d, served, -⟩ :
          ∃ h' cs, ∃ d : Block, kmalloc boot pmmAlloc size t.heap = .ok (d.pointer, h') ∧ _ :=
        sound.inv.kmalloc_direct ⟨b, inList, fit⟩
      rw [served] at run
      cases run
    cases obtained : pmmAlloc (extendPages (kmallocRound size)) t.heap.machine with
    | error e' =>
      rw [sound.inv.listed.kmalloc_halts unfit obtained] at run
      cases run
      obtain ⟨panic, noRun⟩ := (search.of_error obtained).of_pos positive
      exact ⟨panic, bs, sound.inv.listed, unfit, noRun⟩
    | ok frames =>
      obtain ⟨h₁, c, h', cs, d, -, -, served, -⟩ :=
        sound.inv.kmalloc_extended unfit fresh sound.ready bounded obtained
      rw [served] at run
      cases run

/-- A call of the heap. -/
theorem Kernel.Isolated.heap_served (limine : boot.Limine) (direct : boot.Direct)
    (isolated : k.Isolated boot) {c : HeapCall} (allowed : c.Allowed k.session) :
    (KernelOp.heap c).Served boot k := by
  have sized := isolated.mapping.owns.sized
  obtain ⟨⟨bs, sound⟩, apart, mine⟩ := isolated
  have fresh : PageSource.Fresh boot pmmAlloc (KernelReady boot k.spaces k.rest k.stored) :=
    kernelReady_fresh limine direct
  have performed := sound.perform fresh allowed
  have served : Meets (c.perform boot pmmAlloc k.session)
      (fun _ => ¬ c.Starves k.session.heap)
      fun e => e = .panic "Out of Memory!" ∧ c.Starves k.session.heap := by
    cases c with
    | kmalloc size => exact (sound.kmalloc_served fresh sized allowed).bind fun out enough => enough
    | kzalloc size =>
      rw [HeapCall.perform, kzalloc]
      apply Meets.bind _ fun out enough => enough
      exact (sound.kmalloc_served fresh sized allowed).bind fun out enough => enough
    | kfree ptr => exact not_false
    | write a v => exact not_false
  apply served.returned.bind
  intro session found
  obtain ⟨returned, enough⟩ := found
  exact ⟨⟨(performed.of_ok returned).1, apart, mine⟩, enough⟩

/-- Every allowed operation is served. -/
theorem KernelOp.served (limine : boot.Limine) (low : boot.UsableBelow (2 ^ 51))
    (direct : boot.Direct) (isolated : k.Isolated boot) {op : KernelOp}
    (allowed : op.Allowed boot k) : op.Served boot k := by
  cases op with
  | heap c => exact isolated.heap_served limine direct allowed
  | newPt => exact isolated.newPt_served limine
  | table pt virtAddr op =>
    obtain ⟨space, live⟩ := allowed
    exact isolated.table_served limine (low.mono (by decide)) live op
  | destroy pt => exact isolated.destroy_served limine low direct allowed
  | alloc pages => exact isolated.alloc_served limine allowed
  | free base pages => exact isolated.free_served limine allowed
  | write a v => exact ⟨isolated.write limine v allowed, not_false⟩

/-! ## Runs -/

/-- The heap without regions has no frames. -/
theorem not_heapFrame_nil (p : Nat) : ¬ HeapFrame boot [] p := by
  rintro ⟨a, ⟨region, inList, -⟩, -⟩
  cases inList

/-- When the memory managers are initialised the heap is isolated. -/
theorem Kernel.isolated_booted {top : Nat} (limine : boot.Limine) (layout : boot.Layout top)
    (direct : boot.Direct) {v : Vmm} {h : Kheap} (pmm : pmmInit boot (Machine.start mem) = .ok s)
    (vmm : vmmInit boot s = .ok v) (kheap : kheapInit boot pmmAlloc v.machine = .ok h) :
    (Kernel.booted boot v.kernelPT h).Isolated boot := by
  have mapping := vmmInit_returned limine layout pmm vmm
  have nobody : (fun p => (False ∨ False) ∨ HeapFrame boot [] p) = fun _ => False :=
    funext fun p => propext ⟨fun either => not_heapFrame_nil p (either.resolve_left (or_self_iff.mp ·)),
      False.elim⟩
  have ready : KernelReady boot (Kernel.booted boot v.kernelPT h).spaces (fun _ => False ∨ False)
      (fun _ _ => False) v.machine [] :=
    ⟨by rw [nobody]; exact mapping, fun p either => (or_self_iff.mp either).elim, by simp,
      fun _ _ => False.elim⟩
  obtain ⟨start, inv, regions, ready'⟩ :=
    (kheapInit_meets (kernelReady_fresh limine direct) ready).of_ok kheap
  exact ⟨⟨_, sound_init inv regions ready'⟩, fun _ => False.elim, fun _ _ => False.elim⟩

/-- In every run the heap is isolated. -/
theorem KernelRun.isolated {top : Nat} (limine : boot.Limine) (layout : boot.Layout top)
    (direct : boot.Direct) (run : KernelRun boot mem k) : k.Isolated boot := by
  induction run with
  | boot pmm vmm kheap => exact Kernel.isolated_booted limine layout direct pmm vmm kheap
  | step _ allowed returned ih =>
    exact ((KernelOp.served limine layout.usableBelow direct ih allowed).of_ok returned).1

/-! ## What the users rely on -/

/-- An allowed operation with enough free frames continues a run. -/
theorem KernelRun.next {top : Nat} (limine : boot.Limine) (layout : boot.Layout top)
    (direct : boot.Direct) (run : KernelRun boot mem k) (op : KernelOp) (allowed : op.Allowed boot k)
    (enough : ¬ op.Starves boot k) :
    ∃ k', op.perform boot k = .ok k' ∧ KernelRun boot mem k' := by
  have isolated := run.isolated limine layout direct
  have served := KernelOp.served limine layout.usableBelow direct isolated allowed
  obtain ⟨k', returned, -⟩ := (served.mono (fun _ => id) fun e failed => enough failed.2).returns
  exact ⟨k', returned, run.step allowed returned⟩

end Symphony
