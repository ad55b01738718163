import Symphony.Kernel.Interrupt

/-!
# Exceptions of the processor

What the processor pushes when it raises an exception, and what a handler is to find: the
state of the interrupted program, as the fields of `struct regs`, and an epilogue that
brings it back.
-/

namespace Symphony

/-- The vectors for which the processor pushes an error code. -/
def PushesError (vector : Fin 32) : Prop :=
  vector ∈ [8, 10, 11, 12, 13, 14, 17, 21, 29, 30]

instance : DecidablePred PushesError :=
  fun vector => inferInstanceAs (Decidable (vector ∈ _))

/-- The stub pushes a zero in the place of an error code. -/
def PushesZero (vector : Fin 32) : Prop := vector ∉ [8, 10, 11, 12, 13, 14]

instance : DecidablePred PushesZero :=
  fun vector => inferInstanceAs (Decidable (vector ∉ _))

/-- State of a program when an exception interrupts it. -/
structure Interrupted where
  /-- Registers, data segments and memory. -/
  cpu : Cpu
  /-- Instruction pointer. -/
  rip : UInt64
  /-- Code segment selector. -/
  cs : UInt16
  /-- Flags. -/
  rflags : UInt64
  /-- Stack segment selector. -/
  ss : UInt16

namespace Interrupted

/-- The processor switches to a stack and pushes SS, RSP, RFLAGS, CS and RIP, and then the
error code of the vectors that have one. -/
def raise (p : Interrupted) (stack : UInt64) (vector : Fin 32) (error : UInt64) : Cpu :=
  let c := { p.cpu with rsp := stack }
  let c := ((((c.push p.ss.toUInt64).push p.cpu.rsp).push p.rflags).push p.cs.toUInt64).push p.rip
  if PushesError vector then c.push error else c

/-- The structure that describes the exception. -/
def regs (p : Interrupted) (vector : Fin 32) (error : UInt64) : Regs where
  ds := p.cpu.ds.toUInt64
  r15 := p.cpu.reg .r15
  r14 := p.cpu.reg .r14
  r13 := p.cpu.reg .r13
  r12 := p.cpu.reg .r12
  r11 := p.cpu.reg .r11
  r10 := p.cpu.reg .r10
  r9 := p.cpu.reg .r9
  r8 := p.cpu.reg .r8
  rdi := p.cpu.reg .rdi
  rsi := p.cpu.reg .rsi
  rbp := p.cpu.reg .rbp
  rbx := p.cpu.reg .rbx
  rdx := p.cpu.reg .rdx
  rcx := p.cpu.reg .rcx
  rax := p.cpu.reg .rax
  intn := UInt64.ofNat vector
  errCode := if PushesError vector then error else 0
  rip := p.rip
  cs := p.cs.toUInt64
  rflags := p.rflags
  rsp := p.cpu.rsp
  ss := p.ss.toUInt64

/-- The epilogue from a state whose stack pointer and frame are those of the call: it brings
back the general registers and reaches `iretq` with the stack pointer at the saved RIP. -/
def Restores (p : Interrupted) (stack : UInt64) (c : Cpu) : Prop :=
  ∀ c' : Cpu, c'.rsp = c.rsp → c'.stack 23 = c.stack 23 →
    ∃ d, Reaches interruptText ⟨exceptionExit, c'⟩ ⟨[.iretq], d⟩ ∧ d.reg = p.cpu.reg ∧
      d.rsp = stack - 40

/-- The stub of a vector reaches the call of the handler with a structure that describes the
exception, and the epilogue brings the interrupted program back. -/
def Handled (p : Interrupted) (stack : UInt64) (vector : Fin 32) (error : UInt64) : Prop :=
  ∃ c, Reaches interruptText ⟨isr vector, p.raise stack vector error⟩
      ⟨.call .archExceptionHandler :: exceptionExit, c⟩ ∧
    (∀ back, (c.push back).mem.regs (c.reg .rdi) = p.regs vector error) ∧ p.Restores stack c

/-- The vectors with an error code from the processor and a zero from the stub. -/
def twice : List (Fin 32) := [17, 21, 29, 30]

end Interrupted

end Symphony
