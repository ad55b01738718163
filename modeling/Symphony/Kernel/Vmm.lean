import Symphony.Kernel.ArchMm

/-!
# Virtual memory manager

The functions of `vmm.c`. The names `vmm_new_pt`, `vmm_map` and `vmm_switch` are aliases
of the functions of the architecture.
-/

namespace Symphony

/-- `vmm_map_range`. The rounded size that its first statement computes is discarded. -/
def vmmMapRange (boot : Boot) (pageTable physAddr virtAddr size : UInt64) (flags : Int32)
    (s : Machine) : Except Fault Machine :=
  forStep .diverges (fun i => archVmmMap boot pageTable (physAddr + i) (virtAddr + i) flags)
    pageSize size (2 ^ 64) 0 s

/-- Body of the loop of `vmm_init` over the memory map. -/
def vmmMapEntry (boot : Boot) (kernelPT i : UInt64) (s : Machine) : Except Fault Machine := do
  let entry ← bootProtoMemmapEntryGet boot i
  let entry := entry.dropPageZero
  vmmMapRange boot kernelPT entry.base (entry.base + bootProtoHhdmOffset boot) entry.length
    (vmmPresent ||| vmmRwx) s

/-- What `vmm_init` leaves behind. -/
structure Vmm where
  /-- Memory and page frame allocator. -/
  machine : Machine
  /-- `void* kernelPT`. -/
  kernelPT : UInt64
  /-- The root that `arch_vmm_switch` loads into the processor. -/
  cr3 : UInt64

/-- The value that `arch_vmm_switch` loads. -/
def archVmmSwitch (boot : Boot) (pageTable : UInt64) : UInt64 := pageTable - bootProtoHhdmOffset boot

/-- `vmm_init`, up to its status, which is always zero. -/
def vmmInit (boot : Boot) (s : Machine) : Except Fault Vmm := do
  let (kernelPT, s) ← archVmmNewPt boot s
  let s ← forRange (vmmMapEntry boot kernelPT) 0 (bootProtoMemmapEntryCount boot) s
  let s ← vmmMapRange boot kernelPT (bootProtoKernelPhysicalBase boot)
    (bootProtoKernelVirtualBase boot) (bootProtoKernelSize boot) (vmmPresent ||| vmmRwx) s
  .ok ⟨s, kernelPT, archVmmSwitch boot kernelPT⟩

end Symphony
