import Symphony.Kernel.BootProto
import Symphony.Library.Memory

/-!
# State of the machine

The memory that the kernel reaches through its pointers and the two static variables
of `pmm.c`. The memory is addressed by kernel pointers: the higher-half direct map
shows physical address `p` at pointer `p + offset`, so the page frame behind a
pointer is found by subtracting the offset.
-/

namespace Symphony

/-- Memory and the static variables of the page frame allocator. -/
structure Machine where
  /-- Contents behind the kernel's pointers. -/
  mem : Memory
  /-- `static uint8_t* bitmap`. -/
  bitmap : UInt64
  /-- `static size_t bitmapSize`. -/
  bitmapSize : UInt64

/-- The machine when the kernel starts: static variables are zero. -/
def Machine.start (mem : Memory) : Machine := ⟨mem, 0, 0⟩

/-- Page frame behind a kernel pointer. -/
def frameOf (boot : Boot) (pointer : UInt64) : Nat := (pointer - boot.offset).toNat / 4096

end Symphony
