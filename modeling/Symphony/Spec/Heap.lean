import Symphony.Kernel.Kheap
import Symphony.Library.Interval
import Symphony.Library.Linked

/-!
# Heap blocks

The heap as a list of blocks. `Listed` says that the headers in the memory are that list,
doubly linked from `blockListStart` to `blockListEnd`, with blocks that lie apart;
`HeapInv` adds that the blocks tile the page regions obtained and that free neighbours
do not touch. `PageSource.Fresh` is what the heap relies on when it asks for pages.
-/

namespace Symphony

/-- The header fields of a block. -/
structure Header where
  /-- Usable bytes. -/
  size : UInt64
  /-- The block is free. -/
  free : Bool
  /-- Header of the next block. -/
  next : UInt64
  /-- Header of the previous block. -/
  prev : UInt64

/-- The header at an address. -/
def Memory.header (m : Memory) (bh : UInt64) : Header :=
  ⟨m.blockSize bh, m.blockFree bh, m.blockNext bh, m.blockPrev bh⟩

/-- A block of the heap. -/
structure Block where
  /-- Address of its header. -/
  addr : UInt64
  /-- Usable bytes. -/
  size : UInt64
  /-- The block is free. -/
  free : Bool
deriving DecidableEq

namespace Block

/-- Header and payload. -/
def extent (b : Block) : Interval := ⟨b.addr.toNat, 32 + b.size.toNat⟩

/-- The usable bytes. -/
def payload (b : Block) : Interval := ⟨b.addr.toNat + 32, b.size.toNat⟩

/-- The pointer that `kmalloc` returns for the block. -/
def pointer (b : Block) : UInt64 := b.addr + headerSize

/-- The block is at an address other than `NULL`, and the pointer behind it does not wrap. -/
def Fits (b : Block) : Prop := 0 < b.addr.toNat ∧ b.extent.stop < 2 ^ 64

/-- Extents of blocks do not overlap. -/
def Apart (b c : Block) : Prop := b.extent.Apart c.extent

/-- Both blocks are free and the second starts where the first ends. -/
def Mergeable (b c : Block) : Prop :=
  b.free = true ∧ c.free = true ∧ b.extent.stop = c.extent.start

/-- Proper blocks in terms of addresses. -/
theorem fits_iff (b : Block) :
    b.Fits ↔ 0 < b.addr.toNat ∧ b.addr.toNat + (32 + b.size.toNat) < 2 ^ 64 := Iff.rfl

/-- Separated blocks in terms of addresses. -/
theorem apart_iff (b c : Block) : b.Apart c ↔
    b.addr.toNat + (32 + b.size.toNat) ≤ c.addr.toNat ∨
      c.addr.toNat + (32 + c.size.toNat) ≤ b.addr.toNat := Iff.rfl

/-- Blocks to be merged in terms of addresses. -/
theorem mergeable_iff (b c : Block) : b.Mergeable c ↔
    b.free = true ∧ c.free = true ∧ b.addr.toNat + (32 + b.size.toNat) = c.addr.toNat := Iff.rfl

/-- Payload bytes in terms of addresses. -/
theorem has_payload_iff (b : Block) (a : Nat) : b.payload.Has a ↔
    b.addr.toNat + 32 ≤ a ∧ a < b.addr.toNat + 32 + b.size.toNat := Iff.rfl

instance (b c : Block) : Decidable (b.Mergeable c) :=
  inferInstanceAs (Decidable (b.free = true ∧ c.free = true ∧ b.extent.stop = c.extent.start))

/-- The block made of a block and its successor. -/
def merged (b c : Block) : Block := ⟨b.addr, b.size + (c.size + headerSize), b.free⟩

/-- Put a block before a list and merge it with the first one where both are free and touch. -/
def joinFree (b : Block) : List Block → List Block
  | [] => [b]
  | c :: rest => if b.Mergeable c then b.merged c :: rest else b :: c :: rest

/-- Merge all free list neighbours that touch. -/
def mergeFree : List Block → List Block
  | [] => []
  | b :: rest => joinFree b (mergeFree rest)

/-- Mark the blocks behind some pointers as free. -/
def markFree (ptrs : List UInt64) (bs : List Block) : List Block :=
  bs.map fun b => { b with free := b.free || decide (b.pointer ∈ ptrs) }

end Block

/-- The header of a block holds its fields and the addresses of its neighbours. -/
def Cell (m : Memory) (b : Block) (prev next : UInt64) : Prop :=
  m.header b.addr = ⟨b.size, b.free, next, prev⟩

/-- The bytes of the allocator: all headers, and the payloads of free blocks. -/
def AllocatorByte (bs : List Block) (a : UInt64) : Prop :=
  ∃ b ∈ bs, Span b.addr 32 a ∨ b.free = true ∧ b.payload.Has a.toNat

/-- The bytes of a page region. -/
def Region.extent (region : Region) : Interval :=
  ⟨region.base.toNat, 4096 * region.pages.toInt.toNat⟩

/-- The headers in the memory are a list of blocks. -/
structure Listed (h : Kheap) (bs : List Block) : Prop where
  /-- There is a block. -/
  nonempty : bs ≠ []
  /-- The first block. -/
  start : h.blockListStart = firstOr Block.addr bs 0
  /-- The last block. -/
  last : h.blockListEnd = lastOr Block.addr 0 bs
  /-- The headers are linked in both directions, with `NULL` at the ends. -/
  linked : Linked Block.addr (Cell h.mem) 0 bs 0
  /-- Blocks do not overlap. -/
  apart : bs.Pairwise Block.Apart
  /-- Blocks are proper ranges of addresses. -/
  fits : ∀ b ∈ bs, b.Fits

/-- The heap invariant. -/
structure HeapInv (h : Kheap) (bs : List Block) : Prop where
  /-- The block list. -/
  listed : Listed h bs
  /-- In list order the blocks cover the regions in the order in which they were obtained. -/
  tiles : Interval.coalesce (bs.map Block.extent) =
    Interval.coalesce (h.regions.map Region.extent)
  /-- Bytes of all regions. -/
  size : h.kheapSize.toNat = Interval.total (h.regions.map Region.extent)
  /-- No block is free while its successor is also free and starts where it ends. -/
  separate : bs.IsChain fun b c => ¬ b.Mergeable c

/-- Addresses in page regions. -/
def InRegions (regions : List Region) (a : UInt64) : Prop :=
  ∃ region ∈ regions, region.extent.Has a.toNat

/-- What the heap relies on: a request for a positive number of pages halts with the panic of the
page frame allocator, or returns fresh pages and leaves the regions obtained before and the new
one alone. `Ready` is the condition on the allocator under which it can be called. -/
structure PageSource.Fresh (boot : Boot) (source : PageSource)
    (Ready : Machine → List Region → Prop) : Prop where
  /-- Requests for pages. -/
  alloc : ∀ machine regions (pages : Int32), Ready machine regions → 0 < pages.toInt →
    ∀ frames machine', source pages machine = .ok (frames, machine') →
      let region : Region := ⟨frames + boot.offset, pages⟩
      0 < region.base.toNat ∧ region.extent.stop < 2 ^ 64 ∧
      (∀ old ∈ regions, old.extent.Apart region.extent) ∧
      machine.mem.Writes (fun a => ¬ InRegions (regions ++ [region]) a) machine'.mem ∧
      Ready machine' (regions ++ [region])
  /-- The only failure. -/
  halts : ∀ machine regions (pages : Int32), Ready machine regions → 0 < pages.toInt →
    ∀ e, source pages machine = .error e → e = .panic "Out of Memory!"
  /-- The heap may write to its regions. -/
  write : ∀ machine regions m, Ready machine regions →
    machine.mem.Writes (InRegions regions) m → Ready { machine with mem := m } regions

end Symphony
