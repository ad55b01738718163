import Symphony.Verif.Log
import Symphony.Verif.Serial
import Symphony.Verif.Vectors

/-!
# From an exception to the line

The tables, the stubs, the handler and the serial port together: whenever the processor raises an
exception on the level of the kernel, the report of the interrupted program arrives on the line,
also if the program was printing and had to stop between two instructions for the ports.
-/

namespace Symphony

variable {s : Statics} {k : Core} {v : Vectors} {task : TableRegister}

/-! ## Raising an exception by the tables -/

namespace Interrupted

/-- The program in the memory of the processor, with its segments. -/
def on (p : Interrupted) (k : Core) : Interrupted :=
  { p with cpu := { p.cpu with mem := k.mem, ds := k.data }, cs := k.cs, ss := k.ss }

/-- The processor raises an exception in a program: the tables say where it goes on and on which
stack, which it aligns first. -/
def deliver (p : Interrupted) (k : Core) (vector : Fin 32) (error : UInt64) :
    Option (UInt64 × Cpu) := do
  let entry ← k.enter (k.cs.toNat % 4) false (UInt8.ofNat vector.val)
  let stack := entry.stack.getD p.cpu.rsp &&& 0xfffffffffffffff0
  some (entry.rip, (p.on k).raise stack vector error)

/-- With the stub set, an exception on the level of the kernel leads to it, on the stack of the
program. -/
theorem deliver_eq (p : Interrupted) (represents : Represents s k v) (segments : v.segments = true)
    (loaded : v.loaded = true) (kernel : k.cs.toNat % 4 = 0) {vector : Fin 32} {stub : UInt64}
    (set : v.gates (UInt8.ofNat vector.val) = some (stub, intGate)) (error : UInt64) :
    p.deliver k vector error =
      some (stub, (p.on k).raise (p.cpu.rsp &&& 0xfffffffffffffff0) vector error) := by
  have admits : Vectors.Admits intGate 0 false := by
    refine ⟨?_, ?_, fun software => absurd software Bool.false_ne_true⟩ <;> decide
  have enters := represents.enter_eq segments loaded 0 false (UInt8.ofNat vector.val)
  rw [Vectors.enter, set, Option.bind_some, if_pos admits] at enters
  rw [deliver, kernel, enters]
  rfl

end Interrupted

/-! ## What is read on the line -/

/-- A report starts with the level of the log. -/
theorem head?_of_readDump {out : List UInt8} {r : Report} (read : readDump out = some r) :
    out.head? ≠ some (chr '\r') := by
  have starts : plainText "[ FATAL ] Kernel Panic! " =
      .plain (chr '[') :: plainText " FATAL ] Kernel Panic! " := by decide +kernel
  cases out with
  | nil => simp
  | cons c out =>
    rw [readDump, starts, List.cons_append, scan] at read
    by_cases same : c = chr '['
    · have other : chr '[' ≠ chr '\r' := by decide
      simpa [same] using other
    · rw [if_neg same] at read
      cases read

/-- Where printing stops anywhere and a report is printed, a receiver has a part of the text before
and the report. -/
theorem received_of_arrived {earlier out : List UInt8} {stopped : List PortOp} {d₀ d : LogPorts}
    (stops : stopped <+: printOps earlier) (plain : out.head? ≠ some (chr '\r'))
    (arrived : Arrived d₀ (bytesTo debugPort (stopped ++ printOps out))
      (bytesTo comData (stopped ++ printOps out)) d) :
    ∃ old new received, old.length ≤ d₀.uart.pending.length ∧
      d.uart.sent = d₀.uart.sent ++ old ++ new ∧ received <+: earlier ∧
      offLine (new.map LineFrame.bits) = received ++ out := by
  obtain ⟨old, few, sent⟩ := arrived.sent
  have line : bytesTo comData stopped <+: onLine earlier := by
    obtain ⟨more, all⟩ := stops
    rw [← bytesTo_comData, ← all, bytesTo_append]
    exact List.prefix_append _ _
  obtain ⟨received, part, same⟩ := offLine_stopped line plain
  refine ⟨old, _, received, few, sent, part, ?_⟩
  rw [bits_lineFrame, bytesTo_append, bytesTo_comData, same]

/-! ## The whole path -/

/-- In every run with the tables loaded and the stub of a vector set, the processor goes from any
program on the level of the kernel to this stub, the stub calls the handler, and the handler prints
a report. If printing was stopped anywhere and steps are taken on the ports as long as some are
possible, everything arrives at last: a receiver has a part of the text before and the report
behind it, which reads as the message of the vector and the registers of the program. -/
theorem exception_arrives (run : TablesRun s task k v) (segments : v.segments = true)
    (loaded : v.loaded = true) (kernel : k.cs.toNat % 4 = 0) {vector : Fin 32}
    (set : v.gates (UInt8.ofNat vector.val) = some (s.isr vector, intGate))
    {text : UInt64 → Option (List (Instr Label))} (placed : ∀ i, text (s.isr i) = some (isr i))
    (places : Literals) (p : Interrupted) (error : UInt64) (cr : ControlRegs) :
    ∃ rip entered stub c message, p.deliver k vector error = some (rip, entered) ∧
      text rip = some stub ∧
      Reaches interruptText ⟨stub, entered⟩ ⟨.call .archExceptionHandler :: exceptionExit, c⟩ ∧
      exceptionMessages[vector.val]? = some message ∧
      ∀ back, ∃ out,
        archExceptionHandler places ((c.push back).mem.regs (c.reg .rdi)) cr = .ok out ∧
        readDump out = some ⟨message.bytes, (p.on k).reported vector error, cr⟩ ∧
        ∀ earlier stopped f d₀, stopped <+: printOps earlier → logPorts.FairRun f →
          f 0 = (serialInit ++ (stopped ++ printOps out), d₀) →
          ∃ n d old new received, f n = ([], d) ∧ d.uart.pending = [] ∧
            d.uart.lost = d₀.uart.lost ∧ old.length ≤ d₀.uart.pending.length ∧
            d.uart.sent = d₀.uart.sent ++ old ++ new ∧ received <+: earlier ∧
            offLine (new.map LineFrame.bits) = received ++ out := by
  have delivered := p.deliver_eq run.represents segments loaded kernel set error
  obtain ⟨message, listed⟩ := Interrupted.exists_message vector
  obtain ⟨c, call, found⟩ := (p.on k).reaches_reported _ vector error
  have index : (UInt64.ofNat vector.val).toNat = vector.val := toNat_ofNat_of_fits (by omega)
  have intn : ((p.on k).reported vector error).intn = UInt64.ofNat vector.val := by
    unfold Interrupted.reported
    split_ifs <;> rfl
  refine ⟨_, _, _, c, message, delivered, placed vector, call, index ▸ listed, fun back => ?_⟩
  rw [found back]
  rw [← intn] at listed
  obtain ⟨out, printed, read⟩ := readDump_exceptionHandler places cr listed
  refine ⟨out, printed, read, fun earlier stopped f d₀ stops fair start => ?_⟩
  have before := paced_printOps earlier
  have after := paced_printOps out
  obtain ⟨n, d, reached, arrived⟩ := arrived_of_fair fair
    ((before.1.cut stops).append after.1 after.2)
    (not_sendsNext_append (not_sendsNext_cut before.2 stops) after.2) start
  obtain ⟨old, new, received, few, sent, part, same⟩ :=
    received_of_arrived stops (head?_of_readDump read) arrived
  exact ⟨n, d, old, new, received, reached, arrived.idle, arrived.lost, few, sent, part, same⟩

/-- The stubs at their addresses. -/
def pagedText (a : UInt64) : Option (List (Instr Label)) :=
  ((List.finRange 32).find? fun i => pagedStatics.isr i = a).map isr

/-- A stub is found at its address. -/
theorem pagedText_isr (i : Fin 32) : pagedText (pagedStatics.isr i) = some (isr i) := by
  have found : ∀ i : Fin 32,
      (List.finRange 32).find? (fun j => pagedStatics.isr j = pagedStatics.isr i) = some i := by
    decide +kernel
  rw [pagedText, found, Option.map_some]

/-- A page fault between the poll and the write of a character. -/
theorem exception_arrives_paged : ∃ k rip entered out r, ∃ d : LogPorts,
    Interrupted.sample.deliver k 14 2 = some (rip, entered) ∧ readDump out = some r ∧
    ∃ received, received <+: [65, 10] ∧
      offLine (d.uart.sent.map LineFrame.bits) = received ++ out := by
  obtain ⟨k, returned, -⟩ := archLoadGdt_returns zeroCore_started.represents.reserved
  have tables := (zeroCore_started.loadGdt returned).interruptInit
  have run := tables.elsewhere .refl (fun _ _ => not_false) 0x08 0x10 0x10
  have set : (Vectors.interruptInit { Vectors.blank with segments := true } pagedStatics.isr).gates
      (UInt8.ofNat (14 : Fin 32).val) = some (pagedStatics.isr 14, intGate) := rfl
  have kernel : (0x08 : UInt16).toNat % 4 = 0 := by decide
  obtain ⟨rip, entered, stub, c, message, delivered, -, -, -, printed⟩ :=
    exception_arrives run rfl rfl kernel set pagedText_isr (fun _ => ⟨1, by decide⟩)
      Interrupted.sample 2 ⟨0, 0, 0, 0⟩
  obtain ⟨out, -, read, arrives⟩ := printed 0
  let stopped : List PortOp := [.outb debugPort 65, .await comLineStatus 0x20]
  let d₀ : LogPorts := ⟨⟨serialRegs 0, [], none, [], []⟩, []⟩
  obtain ⟨f, start, fair⟩ :=
    PortDevice.exists_fairRun logPorts (serialInit ++ (stopped ++ printOps out), d₀)
  obtain ⟨n, d, old, new, received, -, -, -, few, sent, part, same⟩ :=
    arrives [65, 10] stopped f d₀ ⟨_, rfl⟩ fair start
  have none : old = [] := List.eq_nil_of_length_eq_zero (Nat.le_zero.mp few)
  rw [none] at sent
  exact ⟨_, rip, entered, out, _, d, delivered, read, received, part, by rw [sent]; exact same⟩

end Symphony
