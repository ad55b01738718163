import Symphony.Kernel.Pmm

/-!
# x86-64 page tables

The functions of `arch/x86_64/mm.c`. A page table is 512 entries of eight bytes; its
entries are read and written in the memory of the machine, through the higher-half
direct map. The `int` indices of the source hold nine bits and are kept as words.
-/

namespace Symphony

/-- `struct page_table_entry`. -/
structure PageTableEntry where
  present : Bool
  readWrite : Bool
  userSupervisor : Bool
  writeThrough : Bool
  cacheDisable : Bool
  accessed : Bool
  avl0 : Bool
  pageSize : Bool
  avl1 : BitVec 4
  addr : BitVec 51
  nx : Bool
deriving DecidableEq

namespace PageTableEntry

/-- The fields of a word of eight bytes, in the order of the packed structure. -/
def decode (w : UInt64) : PageTableEntry where
  present := w.toBitVec.getLsbD 0
  readWrite := w.toBitVec.getLsbD 1
  userSupervisor := w.toBitVec.getLsbD 2
  writeThrough := w.toBitVec.getLsbD 3
  cacheDisable := w.toBitVec.getLsbD 4
  accessed := w.toBitVec.getLsbD 5
  avl0 := w.toBitVec.getLsbD 6
  pageSize := w.toBitVec.getLsbD 7
  avl1 := w.toBitVec.extractLsb' 8 4
  addr := w.toBitVec.extractLsb' 12 51
  nx := w.toBitVec.getLsbD 63

/-- The lowest byte of an entry. -/
def flagByte (e : PageTableEntry) : BitVec 8 :=
  BitVec.ofBool e.pageSize ++ BitVec.ofBool e.avl0 ++ BitVec.ofBool e.accessed ++
    BitVec.ofBool e.cacheDisable ++ BitVec.ofBool e.writeThrough ++
    BitVec.ofBool e.userSupervisor ++ BitVec.ofBool e.readWrite ++ BitVec.ofBool e.present

/-- The word of an entry. -/
def encode (e : PageTableEntry) : UInt64 :=
  .ofBitVec (BitVec.ofBool e.nx ++ e.addr ++ e.avl1 ++ e.flagByte)

/-- The bits of the word of an entry. -/
theorem getLsbD_encode (e : PageTableEntry) (k : Nat) : e.encode.toBitVec.getLsbD k =
    if k < 8 then e.flagByte.getLsbD k else if k < 12 then e.avl1.getLsbD (k - 8)
    else if k < 63 then e.addr.getLsbD (k - 12) else decide (k - 63 = 0) && e.nx := by
  simp only [encode, BitVec.getLsbD_append, BitVec.getLsbD_ofBool]
  grind

/-- An encoded entry is decoded to itself. -/
@[simp] theorem decode_encode (e : PageTableEntry) : decode e.encode = e := by
  have avl1 : e.encode.toBitVec.extractLsb' 8 4 = e.avl1 := by
    apply BitVec.eq_of_getLsbD_eq
    intro i small
    simp only [BitVec.getLsbD_extractLsb', getLsbD_encode]
    grind
  have addr : e.encode.toBitVec.extractLsb' 12 51 = e.addr := by
    apply BitVec.eq_of_getLsbD_eq
    intro i small
    simp only [BitVec.getLsbD_extractLsb', getLsbD_encode]
    grind
  have flags : ∀ i, i < 8 → e.encode.toBitVec.getLsbD i = e.flagByte.getLsbD i := by
    intro i small
    rw [getLsbD_encode, if_pos small]
  have nx : e.encode.toBitVec.getLsbD 63 = e.nx := by
    rw [getLsbD_encode]
    rfl
  cases e
  simp only [decode, avl1, addr, nx, flags, Nat.reduceLT, flagByte, BitVec.getLsbD_append,
    BitVec.getLsbD_ofBool]
  simp

/-- Conversion of a 64-bit value to the 51-bit field keeps the low bits. -/
def addrOfWord (w : UInt64) : BitVec 51 := w.toBitVec.setWidth 51

/-- `(uint64_t)entry.addr << 12`. -/
def base (e : PageTableEntry) : UInt64 := UInt64.ofBitVec (e.addr.setWidth 64) <<< 12

/-- `entry.addr << 12` without the conversion: the compiler of the toolchain shifts in the
51 bits of the field. -/
def narrowBase (e : PageTableEntry) : UInt64 := .ofBitVec ((e.addr <<< 12).setWidth 64)

end PageTableEntry

/-- `&table->entries[i]`. -/
def entryPointer (table i : UInt64) : UInt64 := table + 8 * i

/-- `table->entries[i]`. -/
def Memory.entry (m : Memory) (table i : UInt64) : PageTableEntry :=
  .decode (m.load64 (entryPointer table i))

/-- `table->entries[i] = entry`. -/
def Memory.setEntry (m : Memory) (table i : UInt64) (entry : PageTableEntry) : Memory :=
  m.store64 (entryPointer table i) entry.encode

/-- Assignments to fields of `*pte`. -/
def Memory.updateEntry (m : Memory) (pte : UInt64) (change : PageTableEntry → PageTableEntry) :
    Memory :=
  m.store64 pte (change (.decode (m.load64 pte))).encode

/-- The indices that `page_index` stores. -/
structure PageIndex where
  pi : UInt64
  pti : UInt64
  pdi : UInt64
  pdpi : UInt64

/-- `page_index`. -/
def pageIndex (virtAddr : UInt64) : PageIndex where
  pi := (virtAddr >>> 12) &&& 0x1ff
  pti := (virtAddr >>> 12 >>> 9) &&& 0x1ff
  pdi := (virtAddr >>> 12 >>> 9 >>> 9) &&& 0x1ff
  pdpi := (virtAddr >>> 12 >>> 9 >>> 9 >>> 9) &&& 0x1ff

/-- A zeroed table in a new frame; the code of `arch_vmm_new_pt` that `page_from_index` repeats. -/
def newTable (boot : Boot) (s : Machine) : Except Fault (UInt64 × Machine) := do
  let (frame, s) ← pmmAlloc 1 s
  let table := frame + bootProtoHhdmOffset boot
  .ok (table, { s with mem := memset s.mem table 0 4096 })

/-- The block that `page_from_index` repeats for its three upper levels: the table below
entry `i`, allocated and entered if the entry is not present. -/
def tableBelow (boot : Boot) (pt i : UInt64) (s : Machine) : Except Fault (UInt64 × Machine) :=
  let currentEntry := s.mem.entry pt i
  if currentEntry.present then .ok (currentEntry.base + bootProtoHhdmOffset boot, s)
  else do
    let (table, s) ← newTable boot s
    let currentEntry :=
      { currentEntry with
        addr := PageTableEntry.addrOfWord ((table - bootProtoHhdmOffset boot) >>> 12)
        present := true
        readWrite := true
        userSupervisor := true }
    .ok (table, { s with mem := s.mem.setEntry pt i currentEntry })

/-- `page_from_index`. -/
def pageFromIndex (boot : Boot) (pt : UInt64) (index : PageIndex) (s : Machine) :
    Except Fault (UInt64 × Machine) := do
  let (pdp, s) ← tableBelow boot pt index.pdpi s
  let (pd, s) ← tableBelow boot pdp index.pdi s
  let (table, s) ← tableBelow boot pd index.pti s
  .ok (entryPointer table index.pi, s)

/-- `arch_vmm_new_pt`. -/
def archVmmNewPt (boot : Boot) (s : Machine) : Except Fault (UInt64 × Machine) := newTable boot s

/-- Release of the frame behind a pointer. -/
def freeTable (boot : Boot) (table : UInt64) (s : Machine) : Except Fault Machine :=
  pmmFree boot (table - bootProtoHhdmOffset boot) 1 s

/-- The body that the loops of `arch_vmm_destroy_pt` repeat: what a present entry points to is
treated by the loop below and released. -/
def destroyEntry (boot : Boot) (below : UInt64 → Machine → Except Fault Machine) (table : UInt64)
    (i : Nat) (s : Machine) : Except Fault Machine :=
  let entry := s.mem.entry table (UInt64.ofNat i)
  if entry.present then do
    let child := entry.narrowBase + bootProtoHhdmOffset boot
    let s ← below child s
    freeTable boot child s
  else .ok s

/-- The three inner loops of `arch_vmm_destroy_pt`; they test their table for `NULL`. -/
def destroyBelow (boot : Boot) (below : UInt64 → Machine → Except Fault Machine) (table : UInt64)
    (s : Machine) : Except Fault Machine :=
  forLoop (fun i s => if table ≠ 0 then destroyEntry boot below table i s else .ok s) 0 512 s

/-- `arch_vmm_destroy_pt`; the innermost entries have nothing below them. -/
def archVmmDestroyPt (boot : Boot) (pageTable : UInt64) (s : Machine) : Except Fault Machine := do
  let pages := fun _ s => .ok s
  let s ← forLoop (destroyEntry boot
    (destroyBelow boot (destroyBelow boot (destroyBelow boot pages))) pageTable) 0 256 s
  freeTable boot pageTable s

/-- `arch_vmm_set_flags`. -/
def archVmmSetFlags (boot : Boot) (pageTable virtAddr : UInt64) (flags : Int32) (s : Machine) :
    Except Fault Machine := do
  let (pte, s) ← pageFromIndex boot pageTable (pageIndex virtAddr) s
  .ok { s with
    mem := s.mem.updateEntry pte fun entry =>
      { entry with
        present := flags &&& vmmPresent ≠ 0
        readWrite := flags &&& vmmRw ≠ 0
        userSupervisor := flags &&& vmmUser ≠ 0
        pageSize := false
        nx := flags &&& vmmExec = 0 } }

/-- `arch_vmm_map`. -/
def archVmmMap (boot : Boot) (pageTable physAddr virtAddr : UInt64) (flags : Int32) (s : Machine) :
    Except Fault Machine := do
  let (pte, s) ← pageFromIndex boot pageTable (pageIndex virtAddr) s
  let s := { s with
    mem := s.mem.updateEntry pte fun entry =>
      { entry with addr := PageTableEntry.addrOfWord (physAddr >>> 12) } }
  archVmmSetFlags boot pageTable virtAddr flags s

/-- `arch_vmm_unmap`; the invalidation of the processor's cached translation does not
change the memory. -/
def archVmmUnmap (boot : Boot) (pageTable virtAddr : UInt64) (s : Machine) :
    Except Fault Machine := do
  let (pte, s) ← pageFromIndex boot pageTable (pageIndex virtAddr) s
  .ok { s with
    mem := s.mem.updateEntry pte fun entry => { entry with present := false, addr := 0 } }

end Symphony
