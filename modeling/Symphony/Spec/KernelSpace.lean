import Symphony.Kernel.Vmm
import Symphony.Spec.Frames
import Symphony.Spec.Translation

/-!
# The kernel's address space

The address space that `vmm_init` builds, as a function of the responses of the bootloader:
every entry of the memory map at its place in the higher-half direct map, and then the
kernel. `Boot.Layout` collects where the bootloader puts the two.
-/

namespace Symphony

/-- A page of the kernel: present, writable and executable, without user access. -/
def kernelLeaf (frame : Nat) : Leaf := ⟨frame, true, true, false, false⟩

/-- Successive pages are mapped to successive frames. -/
def Space.mapRange (space : Space) (physAddr virtAddr : UInt64) (flags : Int32) : Nat → Space
  | 0 => space
  | count + 1 => (space.mapRange physAddr virtAddr flags count).map
    (pageNumber (virtAddr + UInt64.ofNat (4096 * count)))
    (physFrame (physAddr + UInt64.ofNat (4096 * count))) flags

/-- A page with the flags of `arch_vmm_set_flags`. -/
def flagLeaf (frame : Nat) (flags : Int32) : Leaf := { Leaf.zero with frame }.withFlags flags

/-- Number of turns of a loop over the pages of a range. -/
def pageCount (size : UInt64) : Nat := (size.toNat + 4095) / 4096

/-- A range is mapped for the kernel. -/
def Space.mapKernel (space : Space) (physAddr virtAddr size : UInt64) : Space :=
  space.mapRange physAddr virtAddr (vmmPresent ||| vmmRwx) (pageCount size)

/-- An entry of the memory map, without page zero, is mapped in the direct map. -/
def Space.mapEntry (boot : Boot) (space : Space) (entry : LimineMemmapEntry) : Space :=
  let entry := entry.toBootProto.dropPageZero
  space.mapKernel entry.base (entry.base + boot.offset) entry.length

/-- The direct map of the whole memory map. -/
def Boot.directSpace (boot : Boot) : Space :=
  boot.entries.foldl (Space.mapEntry boot) fun _ => .zero

/-- The address space of the kernel. -/
def Boot.kernelSpace (boot : Boot) : Space :=
  boot.directSpace.mapKernel boot.physicalBase boot.virtualBase boot.kernelSize

/-- The page holds a byte of the entry. -/
def LimineMemmapEntry.Touches (entry : LimineMemmapEntry) (p : Nat) : Prop :=
  ∃ a, entry.base.toNat ≤ a ∧ a < entry.stop ∧ a / 4096 = p

/-- Where the bootloader puts the direct map and the kernel. The memory map ends at or below
a physical address, and the direct map up to it and the kernel are apart in the 48-bit
virtual addresses. -/
structure Boot.Layout (boot : Boot) (top : Nat) : Prop where
  /-- The direct map is page-aligned. -/
  offset : 4096 ∣ boot.offset.toNat
  /-- The kernel is page-aligned in physical memory. -/
  physicalBase : 4096 ∣ boot.physicalBase.toNat
  /-- The kernel is page-aligned in virtual memory. -/
  virtualBase : 4096 ∣ boot.virtualBase.toNat
  /-- There are physical addresses. -/
  positive : 0 < top
  /-- They have 47 bits. -/
  low : top ≤ 2 ^ 47
  /-- The memory map is below the bound. -/
  entries : ∀ entry ∈ boot.entries, entry.stop ≤ top
  /-- The direct map and the kernel do not overlap. -/
  apart : ∀ a o, a < top → o < boot.kernelSize.toNat →
    (boot.offset.toNat + a) % 2 ^ 48 ≠ (boot.virtualBase.toNat + o) % 2 ^ 48

/-- The processor translates a virtual address to a physical one in a page of the kernel. -/
def KernelMapped (boot : Boot) (m : Memory) (pt virtAddr physAddr : UInt64) : Prop :=
  virtAddr.toNat % 4096 = physAddr.toNat % 4096 ∧
    walk boot m pt virtAddr = some (kernelLeaf (physFrame physAddr)).alone

/-- The processor translates a virtual address to a physical one with the given flags. -/
def Translates (boot : Boot) (m : Memory) (pt virtAddr physAddr : UInt64) (flags : Int32) : Prop :=
  virtAddr.toNat % 4096 = physAddr.toNat % 4096 ∧
    walk boot m pt virtAddr = some (flagLeaf (physAddr.toNat / 4096) flags).alone

/-- What `vmm_map_range` is for: every byte of the range is translated to its place, and every
page without a byte of the range as before. -/
structure MapsRange (boot : Boot) (pt physAddr virtAddr size : UInt64) (flags : Int32)
    (before after : Memory) : Prop where
  /-- The bytes of the range. -/
  inside : ∀ o : UInt64, o < size → Translates boot after pt (virtAddr + o) (physAddr + o) flags
  /-- The other pages. -/
  outside : ∀ a, (∀ o : UInt64, o < size → pageNumber a ≠ pageNumber (virtAddr + o)) →
    walk boot after pt a = walk boot before pt a

/-- Number of the pages that hold a byte of a range that is not empty. -/
def touchedPages (virtAddr size : UInt64) : Nat :=
  (virtAddr.toNat % 4096 + size.toNat + 4095) / 4096

/-- The ranges that one call of `vmm_map_range` maps: the pages of the range are different, its
physical addresses have 52 bits, and there are as many pages as the loop has turns, or the last
byte was already in its place. -/
def RangeFits (boot : Boot) (m : Memory) (pt physAddr virtAddr size : UInt64) (flags : Int32) :
    Prop :=
  size = 0 ∨ (touchedPages virtAddr size ≤ 2 ^ 36 ∧ physAddr.toNat + size.toNat ≤ 2 ^ 52 ∧
    (touchedPages virtAddr size = pageCount size ∨
      Translates boot m pt (virtAddr + (size - 1)) (physAddr + (size - 1)) flags))

end Symphony
