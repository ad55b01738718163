import Symphony.Kernel.Pmm

/-!
# Kernel heap

The functions of `kheap.c`. The headers of the blocks lie in the memory in front of the
blocks and are linked in both directions. The functions take the page allocator as a
parameter, `pmm_alloc` being one, and record the page regions that it returned.
-/

namespace Symphony

/-- `sizeof(struct kheap_block_header)`. -/
def headerSize : UInt64 := 32

namespace Memory

/-- `bh->size`. -/
def blockSize (m : Memory) (bh : UInt64) : UInt64 := m.load64 bh

/-- `bh->free`. -/
def blockFree (m : Memory) (bh : UInt64) : Bool := m.byte (bh + 8) ≠ 0

/-- `bh->next`. -/
def blockNext (m : Memory) (bh : UInt64) : UInt64 := m.load64 (bh + 16)

/-- `bh->prev`. -/
def blockPrev (m : Memory) (bh : UInt64) : UInt64 := m.load64 (bh + 24)

/-- Assignment to `bh->size`. -/
def setBlockSize (m : Memory) (bh size : UInt64) : Memory := m.store64 bh size

/-- Assignment to `bh->free`. -/
def setBlockFree (m : Memory) (bh : UInt64) (free : Bool) : Memory :=
  m.store8 (bh + 8) (if free then 1 else 0)

/-- Assignment to `bh->next`. -/
def setBlockNext (m : Memory) (bh next : UInt64) : Memory := m.store64 (bh + 16) next

/-- Assignment to `bh->prev`. -/
def setBlockPrev (m : Memory) (bh prev : UInt64) : Memory := m.store64 (bh + 24) prev

/-- Assignment to `bh->prev` behind the test of `bh` that the source makes each time. -/
def setPrevIfAny (m : Memory) (bh prev : UInt64) : Memory :=
  if bh ≠ 0 then m.setBlockPrev bh prev else m

end Memory

/-- A page region that the heap obtained. -/
structure Region where
  /-- Pointer to its first byte. -/
  base : UInt64
  /-- Number of pages requested. -/
  pages : Int32

/-- State of the heap: the machine and the static variables of `kheap.c`. -/
structure Kheap where
  /-- Memory and page frame allocator. -/
  machine : Machine
  /-- `static struct kheap_block_header* blockListStart`. -/
  blockListStart : UInt64
  /-- `static struct kheap_block_header* blockListEnd`. -/
  blockListEnd : UInt64
  /-- `static size_t kheapSize`. -/
  kheapSize : UInt64
  /-- `static size_t kheapSizeUsable`. -/
  kheapSizeUsable : UInt64
  /-- Page regions in the order in which they were obtained; the code keeps no such list. -/
  regions : List Region

/-- The memory of the heap. -/
def Kheap.mem (h : Kheap) : Memory := h.machine.mem

/-- The heap with another memory. -/
def Kheap.withMem (h : Kheap) (m : Memory) : Kheap := { h with machine := { h.machine with mem := m } }

/-- What the heap calls as `pmm_alloc`. -/
abbrev PageSource := Int32 → Machine → Except Fault (UInt64 × Machine)

/-- `kheap_extend`. -/
def kheapExtend (boot : Boot) (source : PageSource) (size : UInt64) (h : Kheap) :
    Except Fault Kheap := do
  let size := size + headerSize
  let size := if size % pageSize ≠ 0 then alignUp size pageSize else size
  let pages := intOfWord (size / pageSize)
  let (frames, machine) ← source pages h.machine
  let newbh := frames + bootProtoHhdmOffset boot
  let m := memset machine.mem newbh 0 size
  let m := m.setBlockSize newbh (size - headerSize)
  let m := m.setBlockFree newbh true
  let m := m.setBlockPrev newbh h.blockListEnd
  let m := m.setBlockNext h.blockListEnd newbh
  let m := m.setBlockNext newbh 0
  .ok
    { h with
      machine := { machine with mem := m }
      blockListEnd := newbh
      kheapSize := h.kheapSize + size
      kheapSizeUsable := h.kheapSizeUsable + m.blockSize newbh
      regions := h.regions ++ [⟨newbh, pages⟩] }

/-- `kheap_create_block`. -/
def kheapCreateBlock (bh size : UInt64) (h : Kheap) : Kheap :=
  let newbh := bh + headerSize + size
  let m := memset h.mem newbh 0 headerSize
  let m := m.setBlockSize newbh (m.blockSize bh - (size + headerSize))
  let m := m.setBlockSize bh size
  let m := m.setBlockNext newbh (m.blockNext bh)
  let m := m.setBlockNext bh newbh
  let m := m.setBlockPrev newbh bh
  let m := m.setPrevIfAny (m.blockNext newbh) newbh
  let m := m.setBlockFree newbh true
  { h.withMem m with blockListEnd := if bh = h.blockListEnd then newbh else h.blockListEnd }

/-- `kheap_init`, up to its status, which is always zero. -/
def kheapInit (boot : Boot) (source : PageSource) (machine : Machine) : Except Fault Kheap := do
  let (frames, machine) ← source kheapInitPages machine
  let start := frames + bootProtoHhdmOffset boot
  let bytes := wordOfInt kheapInitPages * pageSize
  let m := memset machine.mem start 0 headerSize
  let m := m.setBlockSize start (bytes - headerSize)
  let m := m.setBlockPrev start 0
  let m := m.setBlockNext start 0
  let m := m.setBlockFree start true
  .ok ⟨{ machine with mem := m }, start, start, bytes, m.blockSize start, [⟨start, kheapInitPages⟩]⟩

/-- The rounding of a request in `kmalloc`. -/
def kmallocRound (size : UInt64) : UInt64 := if size % 10 ≠ 0 then alignUp size 0x10 else size

/-- Body of the search loop of `kmalloc`: the heap when the block is returned, or nothing
where the loop goes on. -/
def kmallocTry (size bh : UInt64) (h : Kheap) : Option Kheap :=
  let found := h.mem.blockSize bh
  if ¬ h.mem.blockFree bh ∨ found < size then none
  else if found = size ∨ found > size ∧ found ≤ size + headerSize then
    some (h.withMem (h.mem.setBlockFree bh false))
  else if found > size + headerSize then
    let h := kheapCreateBlock bh size h
    some (h.withMem (h.mem.setBlockFree bh false))
  else none

/-- Search loop of `kmalloc` from a block on. -/
def kmallocSearch (size : UInt64) (h : Kheap) :
    Nat → UInt64 → Except Fault (Option (UInt64 × Kheap))
  | 0, bh => if bh = 0 then .ok none else .error .diverges
  | fuel + 1, bh =>
    if bh = 0 then .ok none
    else
      match kmallocTry size bh h with
      | some h => .ok (some (bh + headerSize, h))
      | none => kmallocSearch size h fuel (h.mem.blockNext bh)

/-- More turns than a list in the memory has items. -/
def manyTurns : Nat := 2 ^ 64

/-- `kmalloc` up to a depth of its recursion. -/
def kmallocGo (boot : Boot) (source : PageSource) :
    Nat → UInt64 → Kheap → Except Fault (UInt64 × Kheap)
  | 0, _, _ => .error .diverges
  | fuel + 1, size, h => do
    let size := kmallocRound size
    match ← kmallocSearch size h manyTurns h.blockListStart with
    | some found => .ok found
    | none =>
      let h ← kheapExtend boot source size h
      kmallocGo boot source fuel size h

/-- `kmalloc`. -/
def kmalloc (boot : Boot) (source : PageSource) (size : UInt64) (h : Kheap) :
    Except Fault (UInt64 × Kheap) :=
  kmallocGo boot source manyTurns size h

/-- `kzalloc`. -/
def kzalloc (boot : Boot) (source : PageSource) (size : UInt64) (h : Kheap) :
    Except Fault (UInt64 × Kheap) := do
  let (ptr, h) ← kmalloc boot source size h
  .ok (ptr, h.withMem (memset h.mem ptr 0 size))

/-- The part of `kfree` that merges a block with its successor. -/
def kfreeMergeNext (bh : UInt64) (h : Kheap) : Kheap :=
  let m := h.mem
  if m.blockNext bh ≠ 0 ∧ m.blockFree (m.blockNext bh) ∧
      bh + m.blockSize bh + headerSize = m.blockNext bh then
    let last := if m.blockNext bh = h.blockListEnd then bh else h.blockListEnd
    let m := m.setBlockSize bh (m.blockSize bh + (m.blockSize (m.blockNext bh) + headerSize))
    let m := m.setPrevIfAny (m.blockNext (m.blockNext bh)) bh
    let m := m.setBlockNext bh (m.blockNext (m.blockNext bh))
    { h.withMem m with blockListEnd := last }
  else h

/-- The part of `kfree` that merges a block with its predecessor. -/
def kfreeMergePrev (bh : UInt64) (h : Kheap) : Kheap :=
  let m := h.mem
  if m.blockPrev bh ≠ 0 ∧ m.blockFree (m.blockPrev bh) ∧
      m.blockPrev bh + m.blockSize (m.blockPrev bh) + headerSize = bh then
    let last := if bh = h.blockListEnd then m.blockPrev bh else h.blockListEnd
    let m := m.setBlockSize (m.blockPrev bh)
      (m.blockSize (m.blockPrev bh) + (m.blockSize bh + headerSize))
    let m := m.setPrevIfAny (m.blockNext bh) (m.blockPrev bh)
    let m := m.setBlockNext (m.blockPrev bh) (m.blockNext bh)
    { h.withMem m with blockListEnd := last }
  else h

/-- `kfree`. -/
def kfree (ptr : UInt64) (h : Kheap) : Kheap :=
  if ptr = 0 then h
  else
    let bh := ptr - headerSize
    if h.mem.blockFree bh then h
    else
      let m := h.mem.setBlockFree bh true
      let m := memset m (bh + headerSize) 0xff (m.blockSize bh)
      kfreeMergePrev bh (kfreeMergeNext bh (h.withMem m))

end Symphony
