import Symphony.Library.X86

/-!
# Exception stubs

The stubs and the common path of `interrupt.asm`, and the structure that the handler of
`interrupt.c` finds behind its argument. Every stub pushes its vector, some of them push
a zero first in the place of an error code, and all go on at `exception_common`.
-/

namespace Symphony

/-- Labels that the stubs and the common path refer to. -/
inductive Label where
  /-- `exception_common`. -/
  | exceptionCommon
  /-- `arch_exception_handler`, which is C code. -/
  | archExceptionHandler

/-- `exception_common` up to its call. -/
def exceptionEntry : List (Instr Label) :=
  [.push .rax, .push .rcx, .push .rdx, .push .rbx, .push .rbp, .push .rsi, .push .rdi,
    .push .r8, .push .r9, .push .r10, .push .r11, .push .r12, .push .r13, .push .r14, .push .r15,
    .movFromDs .rax, .push .rax, .movImm16 .rax 0x10, .movToDs .rax, .movToEs .rax,
    .movFromRsp .rdi, .cld]

/-- `exception_common` behind its call. -/
def exceptionExit : List (Instr Label) :=
  [.pop .rax, .movToDs .rax, .movToEs .rax,
    .pop .r15, .pop .r14, .pop .r13, .pop .r12, .pop .r11, .pop .r10, .pop .r9, .pop .r8,
    .pop .rdi, .pop .rsi, .pop .rbp, .pop .rbx, .pop .rdx, .pop .rcx, .pop .rax,
    .addRsp 16, .iretq]

/-- `exception_common`. -/
def exceptionCommon : List (Instr Label) :=
  exceptionEntry ++ .call .archExceptionHandler :: exceptionExit

/-- The labels inside the text. -/
def interruptText : Label → Option (List (Instr Label))
  | .exceptionCommon => some exceptionCommon
  | .archExceptionHandler => none

/-- A stub that pushes a zero in the place of an error code. -/
def stubWithZero (vector : UInt64) : List (Instr Label) :=
  [.pushImm 0, .pushImm vector, .jmp .exceptionCommon]

/-- A stub that finds an error code on the stack. -/
def stubAlone (vector : UInt64) : List (Instr Label) :=
  [.pushImm vector, .jmp .exceptionCommon]

/-- `isr0`. -/
def isr0 : List (Instr Label) := stubWithZero 0

/-- `isr1`. -/
def isr1 : List (Instr Label) := stubWithZero 1

/-- `isr2`. -/
def isr2 : List (Instr Label) := stubWithZero 2

/-- `isr3`. -/
def isr3 : List (Instr Label) := stubWithZero 3

/-- `isr4`. -/
def isr4 : List (Instr Label) := stubWithZero 4

/-- `isr5`. -/
def isr5 : List (Instr Label) := stubWithZero 5

/-- `isr6`. -/
def isr6 : List (Instr Label) := stubWithZero 6

/-- `isr7`. -/
def isr7 : List (Instr Label) := stubWithZero 7

/-- `isr8`. -/
def isr8 : List (Instr Label) := stubAlone 8

/-- `isr9`. -/
def isr9 : List (Instr Label) := stubWithZero 9

/-- `isr10`. -/
def isr10 : List (Instr Label) := stubAlone 10

/-- `isr11`. -/
def isr11 : List (Instr Label) := stubAlone 11

/-- `isr12`. -/
def isr12 : List (Instr Label) := stubAlone 12

/-- `isr13`. -/
def isr13 : List (Instr Label) := stubAlone 13

/-- `isr14`. -/
def isr14 : List (Instr Label) := stubAlone 14

/-- `isr15`. -/
def isr15 : List (Instr Label) := stubWithZero 15

/-- `isr16`. -/
def isr16 : List (Instr Label) := stubWithZero 16

/-- `isr17`. -/
def isr17 : List (Instr Label) := stubWithZero 17

/-- `isr18`. -/
def isr18 : List (Instr Label) := stubWithZero 18

/-- `isr19`. -/
def isr19 : List (Instr Label) := stubWithZero 19

/-- `isr20`. -/
def isr20 : List (Instr Label) := stubWithZero 20

/-- `isr21`. -/
def isr21 : List (Instr Label) := stubWithZero 21

/-- `isr22`. -/
def isr22 : List (Instr Label) := stubWithZero 22

/-- `isr23`. -/
def isr23 : List (Instr Label) := stubWithZero 23

/-- `isr24`. -/
def isr24 : List (Instr Label) := stubWithZero 24

/-- `isr25`. -/
def isr25 : List (Instr Label) := stubWithZero 25

/-- `isr26`. -/
def isr26 : List (Instr Label) := stubWithZero 26

/-- `isr27`. -/
def isr27 : List (Instr Label) := stubWithZero 27

/-- `isr28`. -/
def isr28 : List (Instr Label) := stubWithZero 28

/-- `isr29`. -/
def isr29 : List (Instr Label) := stubWithZero 29

/-- `isr30`. -/
def isr30 : List (Instr Label) := stubWithZero 30

/-- `isr31`. -/
def isr31 : List (Instr Label) := stubWithZero 31

/-- The stubs in the order of their vectors. -/
def isrs : List (List (Instr Label)) :=
  [isr0, isr1, isr2, isr3, isr4, isr5, isr6, isr7, isr8, isr9,
    isr10, isr11, isr12, isr13, isr14, isr15, isr16, isr17, isr18, isr19,
    isr20, isr21, isr22, isr23, isr24, isr25, isr26, isr27, isr28, isr29,
    isr30, isr31]

/-- The stub of a vector. -/
def isr (vector : Fin 32) : List (Instr Label) := isrs.get (vector.cast rfl)

/-- `struct regs`. -/
structure Regs where
  ds : UInt64
  r15 : UInt64
  r14 : UInt64
  r13 : UInt64
  r12 : UInt64
  r11 : UInt64
  r10 : UInt64
  r9 : UInt64
  r8 : UInt64
  rdi : UInt64
  rsi : UInt64
  rbp : UInt64
  rbx : UInt64
  rdx : UInt64
  rcx : UInt64
  rax : UInt64
  intn : UInt64
  errCode : UInt64
  rip : UInt64
  cs : UInt64
  rflags : UInt64
  rsp : UInt64
  ss : UInt64
deriving DecidableEq

/-- `*regs` behind a pointer: the fields have eight bytes each and lie in their order. -/
def Memory.regs (m : Memory) (p : UInt64) : Regs where
  ds := m.load64 p
  r15 := m.load64 (p + 8)
  r14 := m.load64 (p + 16)
  r13 := m.load64 (p + 24)
  r12 := m.load64 (p + 32)
  r11 := m.load64 (p + 40)
  r10 := m.load64 (p + 48)
  r9 := m.load64 (p + 56)
  r8 := m.load64 (p + 64)
  rdi := m.load64 (p + 72)
  rsi := m.load64 (p + 80)
  rbp := m.load64 (p + 88)
  rbx := m.load64 (p + 96)
  rdx := m.load64 (p + 104)
  rcx := m.load64 (p + 112)
  rax := m.load64 (p + 120)
  intn := m.load64 (p + 128)
  errCode := m.load64 (p + 136)
  rip := m.load64 (p + 144)
  cs := m.load64 (p + 152)
  rflags := m.load64 (p + 160)
  rsp := m.load64 (p + 168)
  ss := m.load64 (p + 176)

end Symphony
