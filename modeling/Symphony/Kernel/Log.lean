import Symphony.Kernel.Print
import Symphony.Kernel.BootProto
import Symphony.Kernel.Interrupt
import Symphony.Library.Loop

/-!
# Log lines

`debug_log` and `debug_panic`, and two of their callers: the handler of exceptions, which prints
the registers that it found, and the part of `_start` that prints the memory map. The linker
places string literals; their addresses are a parameter.
-/

namespace Symphony

/-- Bytes of a text. -/
def textChars (s : String) : List UInt8 := s.toByteArray.data.toList

/-- A string literal, as the characters in front of its NUL. -/
def literal (s : String) (noNul : 0 ∉ textChars s := by decide +kernel)
    (fits : (textChars s).length < 2 ^ 64 := by decide +kernel) : CString :=
  ⟨textChars s, noNul, fits⟩

/-- Addresses of string literals; none of them is null. -/
abbrev Literals : Type := CString → { place : UInt64 // place ≠ 0 }

/-- A pointer to a literal as an argument. -/
def Literals.arg (places : Literals) (s : CString) : VaArg := ⟨(places s).1, some s⟩

/-- A word as an argument. -/
def wordArg (v : UInt64) : VaArg := ⟨v, none⟩

/-! ## Levels -/

/-- `LOGLEVEL_TRACE`. -/
def loglevelTrace : Int32 := 1
/-- `LOGLEVEL_DEBUG`. -/
def loglevelDebug : Int32 := 2
/-- `LOGLEVEL_INFO`. -/
def loglevelInfo : Int32 := 3
/-- `LOGLEVEL_WARN`. -/
def loglevelWarn : Int32 := 4
/-- `LOGLEVEL_ERROR`. -/
def loglevelError : Int32 := 5
/-- `LOGLEVEL_FATAL`. -/
def loglevelFatal : Int32 := 6

/-- The text that `debug_log` prints for a level. -/
def levelText (loglevel : Int32) : CString :=
  if loglevel = loglevelTrace then literal "[ TRACE ] "
  else if loglevel = loglevelDebug then literal "[ DEBUG ] "
  else if loglevel = loglevelInfo then literal "[ INFO  ] "
  else if loglevel = loglevelWarn then literal "[ WARN  ] "
  else if loglevel = loglevelError then literal "[ ERROR ] "
  else if loglevel = loglevelFatal then literal "[ FATAL ] "
  else literal "[ UNK ] "

/-- `debug_log`. The text of the level is not counted. -/
def debugLog (loglevel : Int32) (fmt : CString) (args : List VaArg) : Except Fault Printer := do
  let p ← debugVprintf fmt args
  .ok { p with out := (debugPrint (levelText loglevel)).out ++ p.out }

/-- What `debug_panic` prints before it halts. -/
def panicOutput (fmt : CString) (args : List VaArg) : Except Fault (List UInt8) := do
  let head ← debugLog loglevelFatal (literal "Kernel Panic! ") []
  let body ← debugVprintf fmt args
  .ok (head.out ++ body.out)

/-! ## Exceptions -/

/-- `exceptionMessages`. -/
def exceptionMessages : List CString :=
  [literal "Divide Error", literal "Debug", literal "NMI Triggered", literal "Breakpoint Reached",
    literal "Overflow", literal "Bound Range Exceeded", literal "Invalid Opcode",
    literal "Device Not Available", literal "Double Fault", literal "Coprocessor Segment Overrun",
    literal "Invalid TSS", literal "Segment Not Present", literal "Stack Segment Fault",
    literal "General Protection Fault", literal "Page Fault", literal "(Reserved)",
    literal "x87 Floating-Point Fault", literal "Alignment Check", literal "Machine Check",
    literal "SIMD Floating-Point Fault", literal "Virtualisation Fault",
    literal "Control Protection Fault", literal "(Reserved)", literal "(Reserved)",
    literal "(Reserved)", literal "(Reserved)", literal "(Reserved)", literal "(Reserved)",
    literal "Hypervisor Injection", literal "VMM Communication", literal "Security Fault",
    literal "(Reserved)"]

/-- The format of `arch_exception_handler`. -/
def exceptionFormat : CString := literal
  ("%s!\n" ++
  "RAX = %#016llx RBX = %#016llx RCX = %#016llx\n" ++
  "RDX = %#016llx RSI = %#016llx RDI = %#016llx\n" ++
  "RBP = %#016llx RSP = %#016llx RIP = %#016llx\n" ++
  "R8  = %#016llx R9  = %#016llx R10 = %#016llx\n" ++
  "R11 = %#016llx R12 = %#016llx R13 = %#016llx\n" ++
  "R14 = %#016llx R15 = %#016llx\n" ++
  "RFLAGS = %#016llx\n" ++
  "CS = %#llx DS = %#llx SS = %#llx\n" ++
  "CR0 = %#016llx CR2 = %#016llx\n" ++
  "CR3 = %#016llx CR4 = %#016llx\n" ++
  "V = %#016llx ERR = %#016llx")

/-- The control registers that the handler reads. -/
structure ControlRegs where
  cr0 : UInt64
  cr2 : UInt64
  cr3 : UInt64
  cr4 : UInt64
deriving DecidableEq

/-- What `arch_exception_handler` prints before it halts. A vector behind the table of messages
is read outside of it. -/
def archExceptionHandler (places : Literals) (regs : Regs) (cr : ControlRegs) :
    Except Fault (List UInt8) :=
  match exceptionMessages[regs.intn.toNat]? with
  | none => .error .undefined
  | some message =>
    panicOutput exceptionFormat (places.arg message :: [regs.rax, regs.rbx, regs.rcx,
      regs.rdx, regs.rsi, regs.rdi,
      regs.rbp, regs.rsp, regs.rip,
      regs.r8, regs.r9, regs.r10,
      regs.r11, regs.r12, regs.r13,
      regs.r14, regs.r15,
      regs.rflags,
      regs.cs, regs.ds, regs.ss,
      cr.cr0, cr.cr2,
      cr.cr3, cr.cr4,
      regs.intn, regs.errCode].map wordArg)

/-! ## The memory map -/

/-- `boot_proto_memmap_type_to_str`. -/
def bootProtoMemmapTypeToStr (type : BootProtoMemmapType) : CString :=
  if type = .unknown then literal "Unknown"
  else if type = .usable then literal "Usable"
  else if type = .reserved then literal "Reserved"
  else if type = .acpiReclaimable then literal "ACPI Reclaimable"
  else if type = .acpiNvs then literal "ACPI NVS"
  else if type = .badMemory then literal "Bad Memory"
  else if type = .bootloaderReclaimable then literal "Bootloader Reclaimable"
  else if type = .kernelAndModules then literal "Kernel and Modules"
  else if type = .framebuffer then literal "Framebuffer"
  else literal "Undefined Type"

/-- The format of the loop that prints the memory map. -/
def memmapFormat : CString := literal "memmap entry: %#llx->%#llx %s\n"

/-- Body of the loop of `_start` that prints the memory map, with the characters printed so far. -/
def startLogEntry (places : Literals) (boot : Boot) (i : UInt64) (out : List UInt8) :
    Except Fault (List UInt8) := do
  let entry ← bootProtoMemmapEntryGet boot i
  let p ← debugLog loglevelInfo memmapFormat
    [wordArg entry.base, wordArg (entry.base + entry.length),
      places.arg (bootProtoMemmapTypeToStr entry.type)]
  .ok (out ++ p.out)

/-- The loop of `_start` that prints the memory map. -/
def startLogMemmap (places : Literals) (boot : Boot) : Except Fault (List UInt8) :=
  forRange (startLogEntry places boot) 0 (bootProtoMemmapEntryCount boot) []

end Symphony
