import Symphony.Kernel.Vmm
import Symphony.Spec.KernelSpace
import Symphony.Verif.HeapPages
import Symphony.Verif.TableDemand

/-!
# The memory managers together

The kernel heap, the page tables and the other users of page frames share one machine and one
page frame allocator. `KernelOp` collects what can happen after the boot, in any order;
`KernelRun` says which states are reached. `Consistent` is what the managers owe to their
users: every frame has at most one owner, nobody's bytes change behind their back, and every
page table translates as it was told to.
-/

namespace Symphony

/-- The frame holds a byte of the heap. -/
def HeapFrame (boot : Boot) (regions : List Region) (p : Nat) : Prop :=
  ∃ a, InRegions regions a ∧ frameOf boot a = p

/-- The functions of `mm.c` that change the entry of a page. -/
inductive TableOp where
  | map (physAddr : UInt64) (flags : Int32)
  | unmap
  | setFlags (flags : Int32)

namespace TableOp

/-- The call at a virtual address of a page table. -/
def run (boot : Boot) (pt virtAddr : UInt64) : TableOp → Machine → Except Fault Machine
  | map physAddr flags => archVmmMap boot pt physAddr virtAddr flags
  | unmap => archVmmUnmap boot pt virtAddr
  | setFlags flags => archVmmSetFlags boot pt virtAddr flags

/-- What the call is for. -/
def change (page : BitVec 36) : TableOp → Space → Space
  | map physAddr flags, space => space.map page (physFrame physAddr) flags
  | unmap, space => space.unmap page
  | setFlags flags, space => space.setFlags page flags

end TableOp

/-- State of the memory managers, with what their users know. -/
structure Kernel where
  /-- The heap and its allocations; the heap holds the machine. -/
  session : Session
  /-- The address spaces of the live page tables. -/
  spaces : Spaces
  /-- Frames that other users of the page frame allocator hold. -/
  drivers : Nat → Prop
  /-- Frames that stay allocated though nobody uses them: tables of destroyed page tables. -/
  leaked : Nat → Prop
  /-- Bytes that these users last wrote to their frames. -/
  stored : UInt64 → UInt8 → Prop

namespace Kernel

/-- Memory and page frame allocator. -/
def machine (k : Kernel) : Machine := k.session.heap.machine

/-- Page regions of the heap. -/
def regions (k : Kernel) : List Region := k.session.heap.regions

/-- The kernel with another machine. -/
def withMachine (k : Kernel) (machine : Machine) : Kernel :=
  { k with session := { k.session with heap := { k.session.heap with machine } } }

/-- The kernel after other users gained or lost frames: they keep what they know of the rest. -/
def withDrivers (k : Kernel) (drivers : Nat → Prop) (boot : Boot) : Kernel :=
  { k with drivers, stored := fun a v => k.stored a v ∧ drivers (frameOf boot a) }

/-- A present page of the lower half of an address space has the frame. -/
def MapsLow (k : Kernel) (pt : UInt64) (p : Nat) : Prop :=
  ∃ space, k.spaces pt = some space ∧ space.HasLow p

/-- The kernel after a destruction: the mapped frames are free again, and the tables of the upper
half stay allocated. -/
def withoutSpace (boot : Boot) (k : Kernel) (pt : UInt64) (machine : Machine) : Kernel :=
  { (k.withDrivers (fun p => k.drivers p ∧ ¬ k.MapsLow pt p) boot).withMachine machine with
    spaces := Function.update k.spaces pt none
    leaked := fun p => (k.leaked p ∧ ¬ k.MapsLow pt p) ∨
      UpperTable boot k.machine.mem (frameOf boot pt) p }

end Kernel

/-- What can happen after the boot. -/
inductive KernelOp where
  /-- A call of the heap, or a write to an allocation. -/
  | heap (c : HeapCall)
  /-- A call of `vmm_new_pt`. -/
  | newPt
  /-- A call that changes the entry of a page. -/
  | table (pt virtAddr : UInt64) (op : TableOp)
  /-- A call of `arch_vmm_destroy_pt`. -/
  | destroy (pt : UInt64)
  /-- A call of `pmm_alloc` by another user. -/
  | alloc (pages : Int32)
  /-- A call of `pmm_free` by another user. -/
  | free (base : UInt64) (pages : Int32)
  /-- Another user writes a byte through the direct map. -/
  | write (a : UInt64) (v : UInt8)

namespace KernelOp

/-- The state after an operation. -/
def perform (boot : Boot) (k : Kernel) : KernelOp → Except Fault Kernel
  | heap c => do
    let session ← c.perform boot pmmAlloc k.session
    .ok { k with session }
  | newPt => do
    let (pt, s) ← archVmmNewPt boot k.machine
    .ok { k.withMachine s with spaces := Function.update k.spaces pt (some fun _ => .zero) }
  | table pt virtAddr op => do
    let s ← op.run boot pt virtAddr k.machine
    .ok { k.withMachine s with
      spaces := Function.update k.spaces pt ((k.spaces pt).map (op.change (pageNumber virtAddr))) }
  | destroy pt => do
    let s ← archVmmDestroyPt boot pt k.machine
    .ok (k.withoutSpace boot pt s)
  | alloc pages => do
    let (base, s) ← pmmAlloc pages k.machine
    .ok { k.withMachine s with drivers := fun p => k.drivers p ∨ PageRange base pages p }
  | free base pages => do
    let s ← pmmFree boot base pages k.machine
    .ok ((k.withDrivers (fun p => k.drivers p ∧ ¬ PageRange base pages p) boot).withMachine s)
  | write a v =>
    .ok { k.withMachine { k.machine with mem := k.machine.mem.store8 a v } with
      stored := fun b w => if b = a then w = v else k.stored b w }

/-- Calls of the heap as they are allowed; operations on live page tables; destructions of live page
tables whose lower half maps only frames that the page frame allocator hands out and neither the
heap nor a page table has; requests for pages; releases of whole pages that are held, less than
2 GiB at once; writes to frames that are held. -/
def Allowed (boot : Boot) (k : Kernel) : KernelOp → Prop
  | heap c => c.Allowed k.session
  | newPt => True
  | table pt _ _ => ∃ space, k.spaces pt = some space
  | destroy pt => (∃ space, k.spaces pt = some space) ∧ ∀ p, k.MapsLow pt p →
      k.machine.Allocatable boot p ∧ ¬ TableFrame boot k.machine.mem k.spaces p ∧
        ¬ HeapFrame boot k.regions p
  | alloc pages => 0 < pages.toInt
  | free base pages => 4096 ∣ base.toNat ∧ 0 ≤ pages.toInt ∧ pages.toInt < 2 ^ 19 ∧
      ∀ p, PageRange base pages p → k.drivers p
  | write a _ => k.drivers (frameOf boot a)

end KernelOp

/-- No block of the heap has room for the call, and no run of free pages is long enough for a new
region. -/
def HeapCall.Starves (h : Kheap) : HeapCall → Prop
  | kmalloc size | kzalloc size => ∃ bs, Listed h bs ∧ (∀ b ∈ bs, ¬ b.Suits (kmallocRound size)) ∧
      ∀ b, ¬ h.machine.FreeRun b (extendPages (kmallocRound size)).toInt.toNat
  | kfree _ | write _ _ => False

/-- There are too few free frames for the operation: for the tables that are missing on the path of
a page, for a new top-level table, for a region of the heap, or for the run that is asked for. -/
def KernelOp.Starves (boot : Boot) (k : Kernel) : KernelOp → Prop
  | heap c => c.Starves k.session.heap
  | newPt => ¬ k.machine.Spare 1
  | table pt virtAddr _ => ¬ k.machine.Spare (missing (childAt boot k.machine.mem) (frameOf boot pt)
      (upperPath (pageNumber virtAddr)))
  | alloc pages => ∀ b, ¬ k.machine.FreeRun b pages.toInt.toNat
  | destroy _ | free _ _ | write _ _ => False

/-- The kernel when `kheap_init` returned: one address space, no allocations. -/
def Kernel.booted (boot : Boot) (kernelPT : UInt64) (h : Kheap) : Kernel where
  session := ⟨h, [], [], fun _ => none⟩
  spaces := Function.update (fun _ => none) kernelPT (some boot.kernelSpace)
  drivers _ := False
  leaked _ := False
  stored _ _ := False

/-- States that are reached from the boot by allowed operations. -/
inductive KernelRun (boot : Boot) (mem : Memory) : Kernel → Prop
  /-- The memory managers are initialised. -/
  | boot {s : Machine} {v : Vmm} {h : Kheap} (pmm : pmmInit boot (Machine.start mem) = .ok s)
    (vmm : vmmInit boot s = .ok v) (kheap : kheapInit boot pmmAlloc v.machine = .ok h) :
    KernelRun boot mem (.booted boot v.kernelPT h)
  /-- An operation returns. -/
  | step {k k' : Kernel} {op : KernelOp} (before : KernelRun boot mem k) (allowed : op.Allowed boot k)
    (returned : op.perform boot k = .ok k') : KernelRun boot mem k'

end Symphony
