import Symphony.Kernel.Debug

/-!
# Boot protocol

The part of `boot_proto.c` that the memory managers use, over the responses the
bootloader left: the memory map, the offset of the higher-half direct map, and the
place and size of the kernel. The responses do not change after the boot.
-/

namespace Symphony

/-- Types of a memory map entry in the bootloader's protocol; `other` is any other code. -/
inductive LimineMemmapType where
  | usable | reserved | acpiReclaimable | acpiNvs | badMemory | bootloaderReclaimable
  | kernelAndModules | framebuffer
  | other (code : UInt64)
deriving DecidableEq, Repr

/-- Memory map entry of the bootloader. -/
structure LimineMemmapEntry where
  /-- Base physical address. -/
  base : UInt64
  /-- Length in bytes. -/
  length : UInt64
  /-- Type code. -/
  type : LimineMemmapType
deriving DecidableEq, Repr

/-- `BOOT_PROTO_MEMMAP_*`. -/
inductive BootProtoMemmapType where
  | unknown | usable | reserved | acpiReclaimable | acpiNvs | badMemory
  | bootloaderReclaimable | kernelAndModules | framebuffer
deriving DecidableEq, Repr

/-- `struct boot_proto_memmap_entry`. -/
structure BootProtoMemmapEntry where
  /-- Base physical address. -/
  base : UInt64
  /-- Length in bytes. -/
  length : UInt64
  /-- Type. -/
  type : BootProtoMemmapType
deriving DecidableEq, Repr

/-- Responses of the bootloader. -/
structure Boot where
  /-- Offset of the higher-half direct map. -/
  offset : UInt64
  /-- Memory map. -/
  entries : List LimineMemmapEntry
  /-- The entry count is a 64-bit field of the response. -/
  count_fits : entries.length < 2 ^ 64
  /-- Physical address of the kernel. -/
  physicalBase : UInt64
  /-- Virtual address of the kernel. -/
  virtualBase : UInt64
  /-- Size of the kernel file. -/
  kernelSize : UInt64

/-- `boot_proto_hhdm_offset`. -/
def bootProtoHhdmOffset (boot : Boot) : UInt64 := boot.offset

/-- `boot_proto_memmap_entry_count`. -/
def bootProtoMemmapEntryCount (boot : Boot) : UInt64 := UInt64.ofNat boot.entries.length

/-- `boot_proto_kernel_physical_base`. -/
def bootProtoKernelPhysicalBase (boot : Boot) : UInt64 := boot.physicalBase

/-- `boot_proto_kernel_virtual_base`. -/
def bootProtoKernelVirtualBase (boot : Boot) : UInt64 := boot.virtualBase

/-- `boot_proto_kernel_size`. -/
def bootProtoKernelSize (boot : Boot) : UInt64 := boot.kernelSize

/-- Translation of the type code in `boot_proto_memmap_entry_get`. -/
def LimineMemmapType.toBootProto : LimineMemmapType → BootProtoMemmapType
  | usable => .usable
  | reserved => .reserved
  | acpiReclaimable => .acpiReclaimable
  | acpiNvs => .acpiNvs
  | badMemory => .badMemory
  | bootloaderReclaimable => .bootloaderReclaimable
  | kernelAndModules => .kernelAndModules
  | framebuffer => .framebuffer
  | other _ => .unknown

/-- Only the usable type is translated to the usable type. -/
@[simp] theorem LimineMemmapType.toBootProto_eq_usable (type : LimineMemmapType) :
    type.toBootProto = .usable ↔ type = .usable := by
  cases type <;> simp [toBootProto]

/-- The entry that `boot_proto_memmap_entry_get` returns for an entry of the bootloader. -/
def LimineMemmapEntry.toBootProto (entry : LimineMemmapEntry) : BootProtoMemmapEntry :=
  ⟨entry.base, entry.length, entry.type.toBootProto⟩

/-- `boot_proto_memmap_entry_get`. -/
def bootProtoMemmapEntryGet (boot : Boot) (i : UInt64) : Except Fault BootProtoMemmapEntry := do
  debugAssert (intOfBool (i < bootProtoMemmapEntryCount boot))
    "index greater than the memmap entry count!\n" "boot_proto_memmap_entry_get"
  match boot.entries[i.toNat]? with
  | some entry => .ok entry.toBootProto
  | none => .error .undefined

/-- The entry count is the length of the map. -/
theorem toNat_entryCount (boot : Boot) :
    (bootProtoMemmapEntryCount boot).toNat = boot.entries.length := by
  rw [bootProtoMemmapEntryCount, UInt64.toNat_ofNat', Nat.mod_eq_of_lt boot.count_fits]

/-- An index of the map reads its entry. -/
theorem entryGet_of_lt (boot : Boot) (i : UInt64) (inside : i.toNat < boot.entries.length) :
    bootProtoMemmapEntryGet boot i = .ok (boot.entries[i.toNat]).toBootProto := by
  have below : i < bootProtoMemmapEntryCount boot := by
    rw [UInt64.lt_iff_toNat_lt, toNat_entryCount]
    exact inside
  rw [bootProtoMemmapEntryGet, debugAssert_intOfBool, if_pos below, List.getElem?_eq_getElem inside]
  rfl

/-- An index outside the map stops the kernel. -/
theorem entryGet_of_ge (boot : Boot) (i : UInt64) (outside : boot.entries.length ≤ i.toNat) :
    bootProtoMemmapEntryGet boot i = .error (.assertion "boot_proto_memmap_entry_get"
      "index greater than the memmap entry count!\n") := by
  have above : ¬ i < bootProtoMemmapEntryCount boot := by
    rw [UInt64.lt_iff_toNat_lt, toNat_entryCount]
    omega
  rw [bootProtoMemmapEntryGet, debugAssert_intOfBool, if_neg above]
  rfl

end Symphony
