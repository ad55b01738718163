import Symphony.Kernel.Serial

/-!
# What arrives on the line

However the transmitter takes its time, no character that the kernel prints is lost or overtakes
another one, all are sent with the settings of `serial_init`, and in the end all of them arrive. A
receiver who drops the carriage return behind each newline has the text that was printed.
-/

namespace Symphony

variable {d d' : LogPorts} {ops rest : List PortOp} {text : List UInt8}
  {x y : List PortOp × LogPorts}

/-! ## Characters on the line -/

/-- What is sent for a text: a carriage return stands behind each newline. -/
def onLine (text : List UInt8) : List UInt8 :=
  text.flatMap fun c => if c = chr '\n' then [c, chr '\r'] else [c]

/-- What a receiver makes of it. -/
def offLine : List UInt8 → List UInt8
  | c :: r :: rest =>
    if c = chr '\n' ∧ r = chr '\r' then c :: offLine rest else c :: offLine (r :: rest)
  | [c] => [c]
  | [] => []

/-- A character is received as it is unless it is a newline with a carriage return behind it. -/
theorem offLine_cons {c : UInt8} {rest : List UInt8}
    (plain : c = chr '\n' → rest.head? ≠ some (chr '\r')) :
    offLine (c :: rest) = c :: offLine rest := by
  cases rest with
  | nil => rfl
  | cons r rest => rw [offLine, if_neg fun both => plain both.1 (congrArg some both.2)]

/-- A receiver has the text that was sent. -/
theorem offLine_onLine (text : List UInt8) : offLine (onLine text) = text := by
  induction text with
  | nil => rfl
  | cons c text ih =>
    rw [onLine, List.flatMap_cons, ← onLine]
    by_cases newline : c = chr '\n'
    · rw [if_pos newline, List.cons_append, List.cons_append, List.nil_append, offLine,
        if_pos ⟨newline, rfl⟩, ih]
    · rw [if_neg newline, List.cons_append, List.nil_append,
        offLine_cons fun is => absurd is newline, ih]

/-- A text is sent with its first character first. -/
theorem head?_onLine (text : List UInt8) : (onLine text).head? = text.head? := by
  cases text with
  | nil => rfl
  | cons c text =>
    rw [onLine, List.flatMap_cons]
    split <;> rfl

/-- Where sending stops anywhere and goes on with another text, a receiver has a part of the first
text and the other one. -/
theorem offLine_stopped {earlier out sent : List UInt8} (stopped : sent <+: onLine earlier)
    (plain : out.head? ≠ some (chr '\r')) :
    ∃ received, received <+: earlier ∧ offLine (sent ++ onLine out) = received ++ out := by
  induction earlier generalizing sent with
  | nil =>
    rw [List.prefix_nil.mp stopped]
    exact ⟨[], List.nil_prefix, offLine_onLine out⟩
  | cons c earlier ih =>
    cases sent with
    | nil => exact ⟨[], List.nil_prefix, offLine_onLine out⟩
    | cons b sent =>
      rw [onLine, List.flatMap_cons, ← onLine] at stopped
      by_cases newline : c = chr '\n'
      · rw [if_pos newline, List.cons_append, List.cons_prefix_cons] at stopped
        obtain ⟨rfl, stopped⟩ := stopped
        cases sent with
        | nil =>
          refine ⟨[b], List.cons_prefix_cons.mpr ⟨rfl, List.nil_prefix⟩, ?_⟩
          rw [List.cons_append, List.nil_append, offLine_cons fun _ => head?_onLine out ▸ plain,
            offLine_onLine]
          rfl
        | cons r sent =>
          obtain ⟨rfl, further⟩ := List.cons_prefix_cons.mp stopped
          obtain ⟨received, part, same⟩ := ih further
          refine ⟨b :: received, List.cons_prefix_cons.mpr ⟨rfl, part⟩, ?_⟩
          rw [List.cons_append, List.cons_append, offLine, if_pos ⟨newline, rfl⟩, same]
          rfl
      · rw [if_neg newline, List.cons_append, List.cons_prefix_cons] at stopped
        obtain ⟨rfl, stopped⟩ := stopped
        obtain ⟨received, part, same⟩ := ih stopped
        refine ⟨b :: received, List.cons_prefix_cons.mpr ⟨rfl, part⟩, ?_⟩
        rw [List.cons_append, offLine_cons fun is => absurd is newline, same]
        rfl

/-- A character as it is sent after `serial_init`: eight bits, no parity, one stop bit, at a
twelfth of the highest rate. -/
def lineFrame (c : UInt8) : LineFrame := ⟨c, 12, 3⟩

/-! ## The instructions of the kernel -/

/-- The debug port gets the text. -/
theorem bytesTo_debugPort (text : List UInt8) : bytesTo debugPort (printOps text) = text := by
  have one (c : UInt8) : bytesTo debugPort (putcharOps c) = [c] := by
    rw [putcharOps, serialChar]
    split <;> rfl
  induction text with
  | nil => rfl
  | cons c text ih => rw [printOps, List.flatMap_cons, bytesTo_append, one, ← printOps, ih]; rfl

/-- The serial port gets the text with its carriage returns. -/
theorem bytesTo_comData (text : List UInt8) : bytesTo comData (printOps text) = onLine text := by
  have one (c : UInt8) : bytesTo comData (putcharOps c) =
      if c = chr '\n' then [c, chr '\r'] else [c] := by
    rw [putcharOps, serialChar]
    split <;> rfl
  induction text with
  | nil => rfl
  | cons c text ih =>
    rw [printOps, List.flatMap_cons, bytesTo_append, one, ← printOps, ih, onLine, onLine,
      List.flatMap_cons]

/-- The next instruction writes a character to the serial port. -/
def SendsNext : List PortOp → Prop
  | .outb port _ :: _ => port = comData
  | _ => False

/-- Every character for the serial port is written right behind a poll of the line status; nothing
else is written but to the debug port. -/
def Paced : List PortOp → Prop
  | [] => True
  | .await port mask :: ops => port = comLineStatus ∧ mask = 0x20 ∧ Paced ops
  | .outb port _ :: ops => (port = debugPort ∨ port = comData) ∧ ¬ SendsNext ops ∧ Paced ops

/-- The next instruction of two parts is that of the first, if it has one. -/
theorem not_sendsNext_append (first : ¬ SendsNext ops) (second : ¬ SendsNext rest) :
    ¬ SendsNext (ops ++ rest) := by
  cases ops with
  | nil => exact second
  | cons op ops => cases op <;> exact first

/-- Paced instructions, one after the other. -/
theorem Paced.append (first : Paced ops) (second : Paced rest) (quiet : ¬ SendsNext rest) :
    Paced (ops ++ rest) := by
  induction ops with
  | nil => exact second
  | cons op ops ih =>
    cases op with
    | await port mask =>
      obtain ⟨isPort, isMask, first⟩ := first
      exact ⟨isPort, isMask, ih first⟩
    | outb port data =>
      obtain ⟨isPort, next, first⟩ := first
      exact ⟨isPort, not_sendsNext_append next quiet, ih first⟩

/-- The next instruction of a part from the start on is that of the whole. -/
theorem not_sendsNext_cut (whole : ¬ SendsNext rest) (cut : ops <+: rest) : ¬ SendsNext ops := by
  obtain ⟨more, rfl⟩ := cut
  intro sends
  apply whole
  cases ops with
  | nil => cases sends
  | cons op ops => cases op <;> exact sends

/-- Paced instructions may stop anywhere. -/
theorem Paced.cut (paced : Paced rest) (cut : ops <+: rest) : Paced ops := by
  obtain ⟨more, rfl⟩ := cut
  induction ops with
  | nil => trivial
  | cons op ops ih =>
    cases op with
    | await port mask =>
      obtain ⟨isPort, isMask, paced⟩ := paced
      exact ⟨isPort, isMask, ih paced⟩
    | outb port data =>
      obtain ⟨isPort, next, paced⟩ := paced
      exact ⟨isPort, not_sendsNext_cut next (List.prefix_append ops more), ih paced⟩

/-- Printing is paced. -/
theorem paced_printOps (text : List UInt8) :
    Paced (printOps text) ∧ ¬ SendsNext (printOps text) := by
  induction text with
  | nil => exact ⟨trivial, not_false⟩
  | cons c text ih =>
    rw [printOps, List.flatMap_cons, ← printOps, putcharOps, serialChar]
    constructor
    · split
      · exact ⟨Or.inl rfl, not_false, rfl, rfl, Or.inr rfl, not_false, rfl, rfl, Or.inr rfl, ih.2,
          ih.1⟩
      · exact ⟨Or.inl rfl, not_false, rfl, rfl, Or.inr rfl, ih.2, ih.1⟩
    · change debugPort ≠ comData
      decide

/-! ## Initialisation -/

/-- What `serial_init` makes of the registers; interrupts stay as they are if the divisor latch was
open before. -/
def serialRegs (ier : UInt8) : UartRegs := ⟨ier, 0xc7, 0x03, 0x0f, 0x0c, 0x00⟩

/-- What is sent goes to the line. -/
theorem loopback_serialRegs (ier : UInt8) : (serialRegs ier).loopback = false := by
  change decide ((0x0f : UInt8) &&& 0x10 ≠ 0) = false
  decide

/-- The divisor latch is closed. -/
theorem latchOpen_serialRegs (ier : UInt8) : (serialRegs ier).latchOpen = false := by
  change decide ((0x03 : UInt8) &&& 0x80 ≠ 0) = false
  decide

/-- With these registers a byte is sent as a character. -/
theorem frame_serialRegs (ier c : UInt8) : (serialRegs ier).frame c = lineFrame c := by
  have mask : (0xff : UInt8) >>> (3 - (0x03 &&& 3)) = 0xff := by decide
  simp only [UartRegs.frame, serialRegs, lineFrame, mask, LineFrame.mk.injEq]
  refine ⟨?_, by decide, by decide⟩
  rw [← UInt8.toNat_inj, UInt8.toNat_and]
  exact Nat.and_two_pow_sub_one_of_lt_two_pow c.toNat_lt

/-- Since a state the transmitter lost nothing, and it sent only what was pending then. -/
structure Drains (d₀ d : LogPorts) : Prop where
  /-- Nothing was lost. -/
  lost : d.uart.lost = d₀.uart.lost
  /-- What was pending was sent, is still pending or was dropped. -/
  sent : ∃ old, d.uart.sent = d₀.uart.sent ++ old ∧
    old.length + d.uart.pending.length ≤ d₀.uart.pending.length
  /-- The debug port got nothing. -/
  console : d.console = d₀.console

/-- Moves drain the transmitter. -/
theorem Drains.moves {d₀ : LogPorts} (drains : Drains d₀ d) (moves : logPorts.Moves d d') :
    Drains d₀ d' := by
  obtain ⟨moved, console⟩ := moves
  obtain ⟨old, sent, few⟩ := drains.sent
  obtain ⟨new, more, fewer⟩ := moved.drains
  refine ⟨moved.regs_eq.2.trans drains.lost, ⟨old ++ new, ?_, ?_⟩, console.trans drains.console⟩
  · rw [more, sent, List.append_assoc]
  · rw [List.length_append]
    omega

/-- Emptying the FIFO drains the transmitter. -/
theorem Drains.empty {d₀ : LogPorts} (drains : Drains d₀ d) {regs : UartRegs} :
    Drains d₀ { d with uart := { d.uart with regs, fifo := [] } } := by
  obtain ⟨old, sent, few⟩ := drains.sent
  refine ⟨drains.lost, ⟨old, sent, ?_⟩, drains.console⟩
  simp only [Uart.pending, List.length_append, List.length_nil] at few ⊢
  omega

/-- A drained transmitter with a property of its registers. -/
def DrainsWith (d₀ : LogPorts) (p : UartRegs → Prop) (d : LogPorts) : Prop :=
  Drains d₀ d ∧ p d.uart.regs

/-- The device keeps it. -/
theorem stable_drainsWith (d₀ : LogPorts) (p : UartRegs → Prop) :
    logPorts.Stable (DrainsWith d₀ p) := by
  intro d d' holds moves
  exact ⟨holds.1.moves moves, by rw [moves.1.regs_eq.1]; exact holds.2⟩

/-- The device keeps it with an empty FIFO. -/
theorem stable_empty (d₀ : LogPorts) (p : UartRegs → Prop) :
    logPorts.Stable fun d => DrainsWith d₀ p d ∧ d.uart.fifo = [] := by
  intro d d' holds moves
  exact ⟨stable_drainsWith d₀ p d d' holds.1 moves, moves.1.fifo_nil holds.2⟩

/-- A write to a register drains the transmitter. -/
theorem DrainsWith.set {d₀ : LogPorts} {p q : UartRegs → Prop} (holds : DrainsWith d₀ p d)
    {regs : UartRegs} (sets : p d.uart.regs → q regs) :
    DrainsWith d₀ q { d with uart := { d.uart with regs } } :=
  ⟨⟨holds.1.lost, holds.1.sent, holds.1.console⟩, sets holds.2⟩

/-- An open latch. -/
theorem latchOpen_of_lcr {r : UartRegs} (open_ : r.lcr = 0x80) : r.latchOpen = true := by
  rw [UartRegs.latchOpen, open_]
  rfl

/-- `serial_init` sets the registers and empties the FIFO, and the transmitter sends nothing but
what was pending before. -/
theorem serialInit_triple (d₀ : LogPorts) :
    logPorts.Triple (DrainsWith d₀ fun _ => True) serialInit fun d =>
      DrainsWith d₀ (fun r => ∃ ier, r = serialRegs ier) d ∧ d.uart.fifo = [] := by
  rw [serialInit]
  refine .outb (stable_drainsWith d₀ _) (R := DrainsWith d₀ fun _ => True) ?_ ?_
  · intro d holds
    change DrainsWith d₀ _ { d with uart := if d.uart.regs.latchOpen = true then _ else _ }
    split
    · exact holds.set id
    · exact holds.set id
  refine .outb (stable_drainsWith d₀ _) (R := DrainsWith d₀ fun r => r.lcr = 0x80) ?_ ?_
  · exact fun d holds => holds.set fun _ => rfl
  refine .outb (stable_drainsWith d₀ _)
    (R := DrainsWith d₀ fun r => r.lcr = 0x80 ∧ r.divisorLow = 0x0c) ?_ ?_
  · intro d holds
    change DrainsWith d₀ _ { d with uart := if d.uart.regs.latchOpen = true then _ else _ }
    rw [if_pos (latchOpen_of_lcr holds.2)]
    exact holds.set fun lcr => ⟨lcr, rfl⟩
  refine .outb (stable_drainsWith d₀ _)
    (R := DrainsWith d₀ fun r => r.divisorLow = 0x0c ∧ r.divisorHigh = 0) ?_ ?_
  · intro d holds
    change DrainsWith d₀ _ { d with uart := if d.uart.regs.latchOpen = true then _ else _ }
    rw [if_pos (latchOpen_of_lcr holds.2.1)]
    exact holds.set fun both => ⟨both.2, rfl⟩
  refine .outb (stable_drainsWith d₀ _)
    (R := DrainsWith d₀ fun r => r.lcr = 0x03 ∧ r.divisorLow = 0x0c ∧ r.divisorHigh = 0) ?_ ?_
  · exact fun d holds => holds.set fun both => ⟨rfl, both⟩
  refine .outb (stable_drainsWith d₀ _)
    (R := fun d => DrainsWith d₀ (fun r => r.fcr = 0xc7 ∧ r.lcr = 0x03 ∧ r.divisorLow = 0x0c ∧
      r.divisorHigh = 0) d ∧ d.uart.fifo = []) ?_ ?_
  · intro d holds
    have written : logPorts.write comFifoCtrl 0xc7 d =
        { d with uart := d.uart.write comPort (comPort + 2) 0xc7 } := rfl
    rw [written, Uart.write_fifoControl comPort d.uart (by decide)]
    exact ⟨⟨holds.1.empty, rfl, holds.2⟩, rfl⟩
  refine .outb (stable_empty d₀ _) ?_ (.nil (stable_empty d₀ _))
  intro d holds
  refine ⟨holds.1.set fun found => ⟨d.uart.regs.ier, ?_⟩, holds.2⟩
  obtain ⟨fcr, lcr, low, high⟩ := found
  simp only [serialRegs, fcr, lcr, low, high]

/-! ## Printing -/

/-- While characters are printed: the instructions left are paced and find an empty FIFO where they
write, what was sent, is pending or left to write are the frames, and nothing is lost. -/
structure Sending (frames : List LineFrame) (console lost : List UInt8)
    (x : List PortOp × LogPorts) : Prop where
  /-- The instructions are paced. -/
  paced : Paced x.1
  /-- A write finds an empty FIFO. -/
  clear : SendsNext x.1 → x.2.uart.fifo = []
  /-- The registers are those of `serial_init`. -/
  regs : ∃ ier, x.2.uart.regs = serialRegs ier
  /-- What was sent, is pending or is left to write. -/
  carried : x.2.uart.carried ++ (bytesTo comData x.1).map lineFrame = frames
  /-- What the debug port got or is to get. -/
  console : x.2.console ++ bytesTo debugPort x.1 = console
  /-- What was lost. -/
  lost : x.2.uart.lost = lost

namespace Sending

variable {frames : List LineFrame} {console lost : List UInt8}

/-- Every step keeps it. -/
theorem step (sending : Sending frames console lost x) (step : logPorts.Advance x y) :
    Sending frames console lost y := by
  obtain ⟨paced, clear, ⟨ier, regs⟩, carried, consoles, none⟩ := sending
  cases step with
  | @move ops d d' moves =>
    have kept := moves.1.regs_eq
    have line : d.uart.regs.loopback = false := by rw [regs, loopback_serialRegs]
    refine ⟨paced, fun next => moves.1.fifo_nil (clear next), ⟨ier, kept.1.trans regs⟩, ?_, ?_,
      kept.2.trans none⟩
    · rw [moves.1.carried_eq line]
      exact carried
    · rw [moves.2]
      exact consoles
  | @outb ops port data d =>
    obtain ⟨isPort, quiet, paced⟩ := paced
    cases isPort with
    | inl isDebug =>
      subst isDebug
      refine ⟨paced, fun next => absurd next quiet, ⟨ier, regs⟩, carried, ?_, none⟩
      rw [← consoles]
      exact List.append_assoc _ _ _
    | inr isData =>
      subst isData
      have empty := clear rfl
      have closed : d.uart.regs.latchOpen = false := by rw [regs, latchOpen_serialRegs]
      have written : logPorts.write comData data d =
          { d with uart := d.uart.write comPort comPort data } := rfl
      rw [written, Uart.write_data comPort closed]
      have same := Uart.push_empty empty data
      refine ⟨paced, fun next => absurd next quiet, ⟨ier, by rw [same]; exact regs⟩, ?_, consoles,
        by rw [same]; exact none⟩
      rw [Uart.carried_push empty, regs, frame_serialRegs, List.append_assoc]
      exact carried
  | @ready ops port mask v d reads set =>
    obtain ⟨rfl, rfl, paced⟩ := paced
    exact ⟨paced, fun _ => (reads rfl).1.mp set, ⟨ier, regs⟩, carried, consoles, none⟩

/-- Printing starts from what `serial_init` leaves. -/
theorem start {d₀ : LogPorts} (holds : DrainsWith d₀ (fun r => ∃ ier, r = serialRegs ier) d)
    (paced : Paced ops) (quiet : ¬ SendsNext ops) :
    Sending (d.uart.carried ++ (bytesTo comData ops).map lineFrame)
      (d₀.console ++ bytesTo debugPort ops) d₀.uart.lost (ops, d) :=
  ⟨paced, fun next => absurd next quiet, holds.2, rfl, by rw [holds.1.console], holds.1.lost⟩

end Sending

/-! ## Progress -/

/-- The instructions poll nothing but the line status, for an empty FIFO. -/
def PollsStatus (ops : List PortOp) : Prop :=
  ∀ port mask, PortOp.await port mask ∈ ops → port = comLineStatus ∧ mask = 0x20

/-- Paced instructions poll nothing else. -/
theorem Paced.polls (paced : Paced ops) : PollsStatus ops := by
  induction ops with
  | nil => exact fun _ _ member => absurd member List.not_mem_nil
  | cons op ops ih =>
    intro port mask member
    cases op with
    | outb other data =>
      cases member with
      | tail _ member => exact ih paced.2.2 port mask member
    | await other bits =>
      cases member with
      | head => exact ⟨paced.1, paced.2.1⟩
      | tail _ member => exact ih paced.2.2 port mask member

/-- `serial_init` polls nothing. -/
theorem pollsStatus_serialInit (polls : PollsStatus ops) : PollsStatus (serialInit ++ ops) := by
  intro port mask member
  cases List.mem_append.mp member with
  | inl inInit => simp [serialInit] at inInit
  | inr inRest => exact polls port mask inRest

/-- Steps leave what is polled. -/
theorem PollsStatus.step (polls : PollsStatus x.1) (step : logPorts.Advance x y) :
    PollsStatus y.1 := by
  cases step with
  | move moves => exact polls
  | outb => exact fun port mask member => polls port mask (List.mem_cons_of_mem _ member)
  | ready reads set => exact fun port mask member => polls port mask (List.mem_cons_of_mem _ member)

/-- Steps that are left at most. -/
def stepsLeft (x : List PortOp × LogPorts) : Nat := 3 * x.1.length + x.2.uart.work

/-- Every step is one of them. -/
theorem stepsLeft_lt (step : logPorts.Advance x y) : stepsLeft y < stepsLeft x := by
  cases step with
  | move moves => exact Nat.add_lt_add_left moves.1.work_lt _
  | @outb ops port data d =>
    have written : (logPorts.write port data d).uart.work ≤ d.uart.work + 2 := by
      change (if port = debugPort then _ else _ : LogPorts).uart.work ≤ _
      split
      · exact Nat.le_add_right _ _
      · exact d.uart.work_write_le comPort port data
    simp only [stepsLeft, List.length_cons]
    omega
  | ready reads set =>
    simp only [stepsLeft, List.length_cons]
    omega

/-- As long as something is left to do, a step is possible. -/
theorem exists_advance (polls : PollsStatus ops) (d : LogPorts) :
    (ops = [] ∧ d.uart.pending = []) ∨ ∃ y, logPorts.Advance (ops, d) y := by
  by_cases idle : d.uart.pending = []
  · cases ops with
    | nil => exact Or.inl ⟨rfl, idle⟩
    | cons op ops =>
      right
      cases op with
      | outb port data => exact ⟨_, .outb⟩
      | await port mask =>
        obtain ⟨rfl, rfl⟩ := polls port mask List.mem_cons_self
        obtain ⟨v, reads, set⟩ := Uart.exists_reads comPort (List.append_eq_nil_iff.mp idle).2
        exact ⟨_, .ready reads set⟩
  · obtain ⟨v, moves⟩ := Uart.exists_moves idle
    exact Or.inr ⟨(ops, { d with uart := v }), .move ⟨moves, rfl⟩⟩

/-! ## The log arrives -/

/-- What is on the ports when everything was printed and the transmitter is idle: the bytes for the
debug port and those for the line. -/
structure Arrived (d₀ : LogPorts) (console line : List UInt8) (d : LogPorts) : Prop where
  /-- Nothing is pending. -/
  idle : d.uart.pending = []
  /-- Nothing was lost. -/
  lost : d.uart.lost = d₀.uart.lost
  /-- The debug port got its bytes. -/
  console : d.console = d₀.console ++ console
  /-- Behind what was pending before, the line got its bytes. -/
  sent : ∃ old, old.length ≤ d₀.uart.pending.length ∧
    d.uart.sent = d₀.uart.sent ++ old ++ line.map lineFrame

/-- Once `serial_init` is done, what was sent, is pending or is left to write are the bytes behind
what was pending before. -/
theorem sending_of_run {d₀ : LogPorts} (paced : Paced ops) (quiet : ¬ SendsNext ops)
    (run : logPorts.Run (serialInit ++ ops, d₀) (rest, d))
    (initialised : rest.length ≤ ops.length) :
    ∃ old, old.length ≤ d₀.uart.pending.length ∧
      Sending (d₀.uart.sent ++ old ++ (bytesTo comData ops).map lineFrame)
        (d₀.console ++ bytesTo debugPort ops) d₀.uart.lost (rest, d) := by
  cases run.append_cases with
  | inl first =>
    obtain ⟨left, isLeft, rfl, -⟩ := first
    have positive := List.length_pos_of_ne_nil isLeft
    rw [List.length_append] at initialised
    omega
  | inr second =>
    obtain ⟨between, first, later⟩ := second
    have drained : DrainsWith d₀ (fun _ => True) d₀ := ⟨⟨rfl, ⟨[], by simp⟩, rfl⟩, trivial⟩
    obtain ⟨ready, -⟩ := serialInit_triple d₀ _ _ drained first
    obtain ⟨old, sent, few⟩ := ready.1.sent
    have sending := later.invariant (fun _ _ inv step => inv.step step)
      (Sending.start ready paced quiet)
    rw [Uart.carried, sent] at sending
    refine ⟨old ++ between.uart.pending.map between.uart.regs.frame, ?_, ?_⟩
    · rw [List.length_append, List.length_map]
      exact few
    · rw [← List.append_assoc d₀.uart.sent]
      exact sending

/-- With no instruction left and nothing pending, everything arrived. -/
theorem arrived_of_run {d₀ : LogPorts} (paced : Paced ops) (quiet : ¬ SendsNext ops)
    (run : logPorts.Run (serialInit ++ ops, d₀) ([], d)) (idle : d.uart.pending = []) :
    Arrived d₀ (bytesTo debugPort ops) (bytesTo comData ops) d := by
  obtain ⟨old, few, sending⟩ := sending_of_run paced quiet run (Nat.zero_le _)
  have consoles := sending.console
  have carried := sending.carried
  rw [Uart.carried, idle] at carried
  simp only [bytesTo, List.filterMap_nil, List.map_nil, List.append_nil] at consoles carried
  exact ⟨idle, sending.lost, consoles, old, few, carried⟩

/-- From every state of the ports everything can be printed. -/
theorem exists_arrived (d₀ : LogPorts) (paced : Paced ops) (quiet : ¬ SendsNext ops) :
    ∃ d, logPorts.Run (serialInit ++ ops, d₀) ([], d) ∧
      Arrived d₀ (bytesTo debugPort ops) (bytesTo comData ops) d := by
  obtain ⟨⟨left, d⟩, run, done, idle⟩ := PortDevice.exists_run stepsLeft
    (fun x => x.1 = [] ∧ x.2.uart.pending = []) (fun x => PollsStatus x.1)
    (fun _ _ polls step => polls.step step) (fun _ _ step => stepsLeft_lt step)
    (fun x polls => exists_advance polls x.2) (serialInit ++ ops, d₀)
    (pollsStatus_serialInit paced.polls)
  have done : left = [] := done
  subst done
  exact ⟨d, run, arrived_of_run paced quiet run idle⟩

/-- If steps are taken as long as some are possible, everything arrives. -/
theorem arrived_of_fair {f : Nat → List PortOp × LogPorts} (fair : logPorts.FairRun f)
    {d₀ : LogPorts} (paced : Paced ops) (quiet : ¬ SendsNext ops)
    (start : f 0 = (serialInit ++ ops, d₀)) :
    ∃ n d, f n = ([], d) ∧ Arrived d₀ (bytesTo debugPort ops) (bytesTo comData ops) d := by
  obtain ⟨n, stuck⟩ := fair.ends stepsLeft fun _ _ step => stepsLeft_lt step
  have run := fair.reached n
  rw [start] at run
  have polls := run.invariant (fun _ _ polls step => PollsStatus.step polls step)
    (pollsStatus_serialInit paced.polls)
  obtain ⟨x, reached⟩ : ∃ x, f n = x := ⟨_, rfl⟩
  rw [reached] at stuck run polls
  obtain ⟨left, d⟩ := x
  cases exists_advance polls d with
  | inr possible => exact absurd possible.choose_spec (stuck _)
  | inl done =>
    obtain ⟨rfl, idle⟩ := done
    exact ⟨n, d, reached, arrived_of_run paced quiet run idle⟩

/-- A receiver reads the bytes of the frames. -/
theorem bits_lineFrame (line : List UInt8) : (line.map lineFrame).map LineFrame.bits = line := by
  rw [List.map_map]
  exact List.map_id _

/-- Safety: at every time after `serial_init`, whatever the serial port did in between, no character
was lost, and the line and the debug port got a part of the text from its start on, the line with
the settings of `serial_init`. -/
theorem serial_safe {d₀ : LogPorts} (run : logPorts.Run (serialInit ++ printOps text, d₀) (rest, d))
    (initialised : rest.length ≤ (printOps text).length) :
    d.uart.lost = d₀.uart.lost ∧ d.console <+: d₀.console ++ text ∧
      ∃ old, old.length ≤ d₀.uart.pending.length ∧
        d.uart.sent <+: d₀.uart.sent ++ old ++ (onLine text).map lineFrame := by
  have paced := paced_printOps text
  obtain ⟨old, few, sending⟩ := sending_of_run paced.1 paced.2 run initialised
  rw [bytesTo_comData, bytesTo_debugPort] at sending
  refine ⟨sending.lost, sending.console ▸ List.prefix_append _ _, old, few, ?_⟩
  rw [← sending.carried, Uart.carried, List.append_assoc]
  exact List.prefix_append _ _

/-- A line with a newline is printed from idle ports. -/
theorem serial_safe_sample : ∃ d : LogPorts,
    [65, 10, 13].map lineFrame <+: d.uart.sent ∧ d.uart.lost = [] ∧ d.console <+: [65, 10] := by
  have paced := paced_printOps [65, 10]
  obtain ⟨d, run, arrived⟩ := exists_arrived ⟨⟨serialRegs 0, [], none, [], []⟩, []⟩ paced.1 paced.2
  obtain ⟨lost, console, -⟩ := serial_safe run (Nat.zero_le _)
  obtain ⟨old, few, sent⟩ := arrived.sent
  have none : old = [] := List.eq_nil_of_length_eq_zero (Nat.le_zero.mp few)
  rw [none] at sent
  exact ⟨d, by rw [sent]; decide, lost, console⟩

/-- Delivery: if steps are taken as long as some are possible, then from every state of the ports
the whole text arrives at last, however long the serial port takes; a receiver has it back by
dropping the carriage returns behind newlines. -/
theorem serial_delivers {f : Nat → List PortOp × LogPorts} (fair : logPorts.FairRun f)
    {d₀ : LogPorts} (start : f 0 = (serialInit ++ printOps text, d₀)) :
    ∃ n d, f n = ([], d) ∧ Arrived d₀ text (onLine text) d ∧
      ∃ old new, d.uart.sent = d₀.uart.sent ++ old ++ new ∧
        offLine (new.map LineFrame.bits) = text := by
  have paced := paced_printOps text
  obtain ⟨n, d, reached, arrived⟩ := arrived_of_fair fair paced.1 paced.2 start
  rw [bytesTo_comData, bytesTo_debugPort] at arrived
  obtain ⟨old, -, sent⟩ := arrived.sent
  refine ⟨n, d, reached, arrived, old, _, sent, ?_⟩
  rw [bits_lineFrame, offLine_onLine]

/-- A line is delivered in a fair run. -/
theorem serial_delivers_sample : ∃ d : LogPorts, d.console = [65, 10] ∧
    d.uart.sent = [65, 10, 13].map lineFrame := by
  let d₀ : LogPorts := ⟨⟨serialRegs 0, [], none, [], []⟩, []⟩
  obtain ⟨f, start, fair⟩ :=
    PortDevice.exists_fairRun logPorts (serialInit ++ printOps [65, 10], d₀)
  obtain ⟨n, d, -, arrived, -⟩ := serial_delivers fair start
  obtain ⟨old, few, sent⟩ := arrived.sent
  have none : old = [] := List.eq_nil_of_length_eq_zero (Nat.le_zero.mp few)
  rw [none] at sent
  exact ⟨d, arrived.console, sent⟩

end Symphony
