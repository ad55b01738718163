import Symphony.Library.Memory

/-!
# Descriptor tables of the x86-64

How the processor reads gates and segment descriptors, and where it goes on when it raises an
exception or when a program asks for an interrupt. Selectors of a local table are not followed.
-/

namespace Symphony

/-! ## Descriptors -/

/-- A gate of the interrupt table. -/
structure Gate where
  /-- Where the processor goes on. -/
  offset : UInt64
  /-- Code segment. -/
  selector : UInt16
  /-- Number of a stack of the task, or zero. -/
  ist : BitVec 3
  /-- Type with the bit of segments on top. -/
  kind : BitVec 5
  /-- Level from which programs may use the gate. -/
  dpl : BitVec 2
  /-- The gate is there. -/
  present : Bool

/-- The gate in two words. -/
def Gate.ofWords (low high : UInt64) : Gate where
  offset := .ofBitVec (high.toBitVec.extractLsb' 0 32 ++ low.toBitVec.extractLsb' 48 16 ++
    low.toBitVec.extractLsb' 0 16)
  selector := .ofBitVec (low.toBitVec.extractLsb' 16 16)
  ist := low.toBitVec.extractLsb' 32 3
  kind := low.toBitVec.extractLsb' 40 5
  dpl := low.toBitVec.extractLsb' 45 2
  present := low.toBitVec.getLsbD 47

/-- An interrupt gate; it masks interrupts. -/
def Gate.masks (g : Gate) : Bool := g.kind = 0xe

/-- The gate is an interrupt gate or a trap gate, and it is there. -/
def Gate.usable (g : Gate) : Bool := (g.kind = 0xe || g.kind = 0xf) && g.present

/-- A descriptor of the segment table. -/
structure Descriptor where
  /-- Type with the bit of segments on top. -/
  kind : BitVec 5
  /-- Level of the segment. -/
  dpl : BitVec 2
  /-- The segment is there. -/
  present : Bool
  /-- Code of 64 bits. -/
  long : Bool
  /-- Operands of 32 bits by default. -/
  wide : Bool
  /-- Lower half of the address. -/
  base : BitVec 32
  /-- Last byte. -/
  limit : BitVec 20

namespace Descriptor

/-- The descriptor in a word. -/
def ofWord (w : UInt64) : Descriptor where
  kind := w.toBitVec.extractLsb' 40 5
  dpl := w.toBitVec.extractLsb' 45 2
  present := w.toBitVec.getLsbD 47
  long := w.toBitVec.getLsbD 53
  wide := w.toBitVec.getLsbD 54
  base := w.toBitVec.extractLsb' 56 8 ++ w.toBitVec.extractLsb' 16 24
  limit := w.toBitVec.extractLsb' 48 4 ++ w.toBitVec.extractLsb' 0 16

/-- Code of 64 bits. -/
def isCode (d : Descriptor) : Bool :=
  d.kind.getLsbD 4 && d.kind.getLsbD 3 && d.present && d.long && !d.wide

/-- Code that runs on the level of its caller. -/
def conforming (d : Descriptor) : Bool := d.kind.getLsbD 2

/-- Data that may be written. -/
def isData (d : Descriptor) : Bool :=
  d.kind.getLsbD 4 && !d.kind.getLsbD 3 && d.kind.getLsbD 1 && d.present

/-- A task of 64 bits that does not run. -/
def isTask (d : Descriptor) : Bool := d.kind = 9 && d.present

end Descriptor

/-! ## Table registers -/

/-- A register for a table. -/
structure TableRegister where
  /-- Address of the table. -/
  base : UInt64
  /-- Offset of its last byte. -/
  limit : Nat
deriving DecidableEq

/-- The part of the processor's state that the tables are about. -/
structure Core where
  /-- Memory. -/
  mem : Memory
  /-- Segment table. -/
  gdtr : TableRegister
  /-- Interrupt table. -/
  idtr : TableRegister
  /-- Task state. -/
  task : TableRegister
  /-- Code segment. -/
  cs : UInt16
  /-- Stack segment. -/
  ss : UInt16
  /-- Data segments. -/
  data : UInt16

/-- The word that a selector of the segment table stands for. -/
def Core.segment (c : Core) (selector : UInt16) : Option UInt64 :=
  let offset := (selector &&& 0xfff8).toNat
  if selector &&& 4 = 0 ∧ offset ≠ 0 ∧ offset + 7 ≤ c.gdtr.limit then
    some (c.mem.load64 (c.gdtr.base + UInt64.ofNat offset))
  else none

/-! ## Loading segments -/

namespace Core

/-- The processor marks a descriptor with a bit. -/
def mark (c : Core) (selector : UInt16) (word bit : UInt64) : Core :=
  let place := c.gdtr.base + UInt64.ofNat (selector &&& 0xfff8).toNat
  { c with mem := c.mem.store64 place (word ||| ((1 : UInt64) <<< bit)) }

/-- Load the data segments and the stack segment on the level of the kernel; nothing comes of it if
the processor raises an exception. Bit 40 says that the segment was used. -/
def loadData (selector : UInt16) (c : Core) : Option Core := do
  let word ← c.segment selector
  if (Descriptor.ofWord word).isData ∧ (Descriptor.ofWord word).dpl = 0 then
    some { c.mark selector word 40 with ss := selector, data := selector }
  else none

/-- A far return on the level of the kernel. -/
def loadCode (selector : UInt16) (c : Core) : Option Core := do
  let word ← c.segment selector
  if (Descriptor.ofWord word).isCode ∧ (Descriptor.ofWord word).dpl = 0 then
    some { c.mark selector word 40 with cs := selector }
  else none

/-- `ltr`: the task is marked as one that runs. The type of the upper word is to be zero. -/
def loadTask (selector : UInt16) (c : Core) : Option Core := do
  let word ← c.segment selector
  let upper ← c.segment (selector + 8)
  let d := Descriptor.ofWord word
  if d.isTask ∧ upper.toBitVec.extractLsb' 40 5 = 0 then
    some { c.mark selector word 41 with
      task := ⟨.ofBitVec (upper.toBitVec.extractLsb' 0 32 ++ d.base), d.limit.toNat⟩ }
  else none

/-! ## Entering the kernel -/

/-- How a program is interrupted. -/
structure Entry where
  /-- Where the processor goes on. -/
  rip : UInt64
  /-- Code segment, with the level. -/
  cs : UInt16
  /-- Level. -/
  level : Nat
  /-- Interrupts are masked. -/
  masks : Bool
  /-- The stack of the task that is used; without one, the program's own. -/
  stack : Option UInt64
deriving DecidableEq

/-- The place of the stack pointer in the task state: one by number, or that of a lower level. -/
def stackPlace (ist level newLevel : Nat) : Option Nat :=
  if ist ≠ 0 then some (28 + 8 * ist)
  else if newLevel < level then some (4 + 8 * newLevel) else none

/-- The stack pointer there; the outer value is missing beyond the task state. -/
def taskStack (c : Core) : Option Nat → Option (Option UInt64)
  | none => some none
  | some place =>
    if place + 7 ≤ c.task.limit then some (some (c.mem.load64 (c.task.base + UInt64.ofNat place)))
    else none

/-- The stack pointer that the task state has for the level of the kernel. -/
def kernelStack (c : Core) : Option UInt64 :=
  if 11 ≤ c.task.limit then some (c.mem.load64 (c.task.base + 4)) else none

/-- From a lower level the processor takes this stack, and otherwise the program's own. -/
theorem taskStack_kernel (c : Core) (level : Nat) : c.taskStack (stackPlace 0 level 0) =
    if level = 0 then some none else c.kernelStack.map some := by
  by_cases kernel : level = 0
  · subst kernel
    rfl
  · have place : stackPlace 0 level 0 = some 4 := if_pos (Nat.pos_of_ne_zero kernel)
    rw [place, if_neg kernel, taskStack, kernelStack]
    by_cases fits : 11 ≤ c.task.limit
    · rw [if_pos fits, if_pos fits]
      rfl
    · rw [if_neg fits, if_neg fits]
      rfl

/-- What the processor does on a vector, on the level of the program; `software` says that the
program asked for it. Nothing comes of it if the tables are not in order; faults of the processor
when it pushes to the stack or fetches the first instruction are not part of it. -/
def enter (c : Core) (level : Nat) (software : Bool) (vector : UInt8) : Option Entry :=
  let place := 16 * vector.toNat
  let gate := Gate.ofWords (c.mem.load64 (c.idtr.base + UInt64.ofNat place))
    (c.mem.load64 (c.idtr.base + UInt64.ofNat (place + 8)))
  if place + 15 ≤ c.idtr.limit ∧ gate.usable = true ∧
      (software = true → level ≤ gate.dpl.toNat) then do
    let word ← c.segment gate.selector
    let code := Descriptor.ofWord word
    if code.isCode = true ∧ code.dpl.toNat ≤ level then do
      let newLevel := if code.conforming then level else code.dpl.toNat
      let stack ← c.taskStack (stackPlace gate.ist.toNat level newLevel)
      some ⟨gate.offset, (gate.selector &&& 0xfffc) ||| UInt16.ofNat newLevel, newLevel,
        gate.masks, stack⟩
    else none
  else none

end Core

end Symphony
