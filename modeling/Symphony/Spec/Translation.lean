import Symphony.Kernel.ArchMm
import Mathlib.Data.BitVec

/-!
# Address translation

The walk that the processor makes over four levels of page tables, and what an address
space is for: a function from the 36-bit number of a virtual page to a leaf. A walk yields
the leaf together with the permissions that the entries on the way leave.
-/

namespace Symphony

/-- Pointer to the page table in a frame. -/
def tablePointer (boot : Boot) (frame : Nat) : UInt64 := UInt64.ofNat (4096 * frame) + boot.offset

/-- Entry of the page table in a frame. -/
def entryAt (boot : Boot) (m : Memory) (frame : Nat) (i : Fin 512) : PageTableEntry :=
  m.entry (tablePointer boot frame) (UInt64.ofNat i)

/-- The frame that the processor finds in bits 12 to 51 of an entry. -/
def PageTableEntry.frame (e : PageTableEntry) : Nat := e.addr.toNat % 2 ^ 40

/-- Page frame of a physical address. The processor uses 52 bits of it. -/
def physFrame (physAddr : UInt64) : Nat := physAddr.toNat / 4096 % 2 ^ 40

/-- Physical addresses of at most 52 bits are used whole. -/
theorem physFrame_of_lt {physAddr : UInt64} (low : physAddr.toNat < 2 ^ 52) :
    physFrame physAddr = physAddr.toNat / 4096 := Nat.mod_eq_of_lt (by omega)

/-- What an address space says about a virtual page. -/
structure Leaf where
  /-- Page frame. -/
  frame : Nat
  /-- The page is mapped. -/
  present : Bool
  /-- Writing is allowed. -/
  readWrite : Bool
  /-- User code has access. -/
  userSupervisor : Bool
  /-- Execution is forbidden. -/
  nx : Bool
deriving DecidableEq

/-- The leaf of a page that was never touched. -/
def Leaf.zero : Leaf := ⟨0, false, false, false, false⟩

/-- The leaf in an entry of the last level. -/
def PageTableEntry.leaf (e : PageTableEntry) : Leaf :=
  ⟨e.frame, e.present, e.readWrite, e.userSupervisor, e.nx⟩

/-- Result of a walk: the leaf and the permissions over all levels. -/
structure Translation where
  /-- Leaf in the last level. -/
  leaf : Leaf
  /-- Every level allows writing. -/
  readWrite : Bool
  /-- Every level allows user access. -/
  userSupervisor : Bool
  /-- Some level forbids execution. -/
  nx : Bool

/-- A leaf whose own flags are the effective ones. -/
def Leaf.alone (leaf : Leaf) : Translation := ⟨leaf, leaf.readWrite, leaf.userSupervisor, leaf.nx⟩

/-- The permissions of a translation below an entry. -/
def PageTableEntry.restrict (e : PageTableEntry) (t : Translation) : Translation where
  leaf := t.leaf
  readWrite := e.readWrite && t.readWrite
  userSupervisor := e.userSupervisor && t.userSupervisor
  nx := e.nx || t.nx

/-- Walk below a table. A missing table translates to nothing; an entry for a large page
ends the walk before the last level. -/
def walkBelow (boot : Boot) (m : Memory) : Nat → List (Fin 512) → Option Translation
  | _, [] => none
  | frame, [i] => some (entryAt boot m frame i).leaf.alone
  | frame, i :: j :: path =>
    let e := entryAt boot m frame i
    if e.present then
      if e.pageSize then none else (walkBelow boot m e.frame (j :: path)).map e.restrict
    else some Leaf.zero.alone

/-- Number of the virtual page of an address. -/
def pageNumber (virtAddr : UInt64) : BitVec 36 := virtAddr.toBitVec.extractLsb' 12 36

/-- Indices of the three upper levels. -/
def upperPath (page : BitVec 36) : List (Fin 512) :=
  [Fin.ofNat 512 (page.toNat / 2 ^ 27), Fin.ofNat 512 (page.toNat / 2 ^ 18),
    Fin.ofNat 512 (page.toNat / 2 ^ 9)]

/-- The last level lies below three tables. -/
theorem length_upperPath (page : BitVec 36) : (upperPath page).length = 3 := rfl

/-- Index of the last level. -/
def lastIndex (page : BitVec 36) : Fin 512 := Fin.ofNat 512 page.toNat

/-- Walk of the processor after `arch_vmm_switch` to a page table. -/
def walk (boot : Boot) (m : Memory) (pt virtAddr : UInt64) : Option Translation :=
  let page := pageNumber virtAddr
  walkBelow boot m (frameOf boot pt) (upperPath page ++ [lastIndex page])

/-- An address space. -/
abbrev Space := BitVec 36 → Leaf

/-- The flags that `arch_vmm_set_flags` gives to a leaf. -/
def Leaf.withFlags (leaf : Leaf) (flags : Int32) : Leaf where
  frame := leaf.frame
  present := flags &&& vmmPresent ≠ 0
  readWrite := flags &&& vmmRw ≠ 0
  userSupervisor := flags &&& vmmUser ≠ 0
  nx := flags &&& vmmExec = 0

/-- A page is mapped to a frame. -/
def Space.map (space : Space) (page : BitVec 36) (frame : Nat) (flags : Int32) : Space :=
  Function.update space page ({ space page with frame }.withFlags flags)

/-- The flags of a page are replaced. -/
def Space.setFlags (space : Space) (page : BitVec 36) (flags : Int32) : Space :=
  Function.update space page ((space page).withFlags flags)

/-- A page is unmapped; its other flags stay. -/
def Space.unmap (space : Space) (page : BitVec 36) : Space :=
  Function.update space page { space page with present := false, frame := 0 }

/-- Different pages have different indices. -/
theorem page_eq_of_indices {p q : BitVec 36} (upper : upperPath p = upperPath q)
    (last : lastIndex p = lastIndex q) : p = q := by
  have hp := p.isLt
  have hq := q.isLt
  simp only [upperPath, List.cons.injEq, Fin.ext_iff, Fin.val_ofNat, and_true] at upper
  simp only [lastIndex, Fin.ext_iff, Fin.val_ofNat] at last
  apply BitVec.eq_of_toNat_eq
  omega

end Symphony
