import Symphony.Library.Ports
import Mathlib.Tactic.Common

/-!
# Transmitter of a 16550 serial port

Registers, transmit FIFO and shift register. Eight ports belong to the device. The first one holds
the data, unless the divisor latch is open (bit 7 of the line control); the second one then holds
the upper half of the divisor. Bit 5 of the line status says that the FIFO is empty, bit 6 that
nothing is left to send. The receiver, interrupts and the modem lines are left out, so other bits
of what is read are arbitrary.
-/

namespace Symphony

/-- Registers that are written to. -/
structure UartRegs where
  /-- Interrupt enable. -/
  ier : UInt8
  /-- FIFO control. -/
  fcr : UInt8
  /-- Line control. -/
  lcr : UInt8
  /-- Modem control. -/
  mcr : UInt8
  /-- Lower half of the divisor. -/
  divisorLow : UInt8
  /-- Upper half of the divisor. -/
  divisorHigh : UInt8

/-- A character on the line: its bits, the divisor of the clock that paces them, and the line
control without the divisor latch (word length, stop bits, parity and break). -/
structure LineFrame where
  /-- Data bits. -/
  bits : UInt8
  /-- Divisor. -/
  divisor : Nat
  /-- Format. -/
  format : UInt8
deriving DecidableEq

namespace UartRegs

/-- The divisor latch is open. -/
def latchOpen (r : UartRegs) : Bool := r.lcr &&& 0x80 ≠ 0

/-- What is sent goes to the receiver of the same device. -/
def loopback (r : UartRegs) : Bool := r.mcr &&& 0x10 ≠ 0

/-- Places of the FIFO; there is one if the FIFO is off. -/
def places (r : UartRegs) : Nat := if r.fcr &&& 1 ≠ 0 then 16 else 1

/-- How a byte is sent: the line control gives the length of the words. -/
def frame (r : UartRegs) (data : UInt8) : LineFrame where
  bits := data &&& (0xff >>> (3 - (r.lcr &&& 3)))
  divisor := 256 * r.divisorHigh.toNat + r.divisorLow.toNat
  format := r.lcr &&& 0x7f

end UartRegs

/-- State of the transmitter. -/
structure Uart where
  /-- Registers. -/
  regs : UartRegs
  /-- Bytes that wait. -/
  fifo : List UInt8
  /-- The byte that is being sent. -/
  shift : Option UInt8
  /-- What was sent. -/
  sent : List LineFrame
  /-- Bytes that found no place. -/
  lost : List UInt8

namespace Uart

variable {u v : Uart} {base port : UInt16} {data : UInt8}

/-- Bytes that are not sent yet. -/
def pending (u : Uart) : List UInt8 := u.shift.toList ++ u.fifo

/-- A byte for the transmitter. -/
def push (u : Uart) (data : UInt8) : Uart :=
  if u.fifo.length < u.regs.places then { u with fifo := u.fifo ++ [data] }
  else { u with lost := u.lost ++ [data] }

/-- A write to a register. Switching the FIFO on or off empties it, and so does bit 2 of the FIFO
control while it is on. -/
def write (base port : UInt16) (data : UInt8) (u : Uart) : Uart :=
  if port = base then
    if u.regs.latchOpen then { u with regs := { u.regs with divisorLow := data } } else u.push data
  else if port = base + 1 then
    if u.regs.latchOpen then { u with regs := { u.regs with divisorHigh := data } }
    else { u with regs := { u.regs with ier := data } }
  else if port = base + 2 then
    let empties := (data ^^^ u.regs.fcr) &&& 1 ≠ 0 ∨ data &&& 5 = 5
    { u with regs := { u.regs with fcr := data }, fifo := if empties then [] else u.fifo }
  else if port = base + 3 then { u with regs := { u.regs with lcr := data } }
  else if port = base + 4 then { u with regs := { u.regs with mcr := data } }
  else u

/-- What a read may yield. -/
def Reads (base port : UInt16) (u : Uart) (v : UInt8) : Prop :=
  port = base + 5 → (v &&& 0x20 ≠ 0 ↔ u.fifo = []) ∧ (v &&& 0x40 ≠ 0 ↔ u.pending = [])

/-- Data go to the transmitter while the divisor latch is closed. -/
theorem write_data (base : UInt16) (closed : u.regs.latchOpen = false) (data : UInt8) :
    u.write base base data = u.push data := by
  rw [write, if_pos rfl, closed]
  rfl

/-- The FIFO is emptied. -/
theorem write_fifoControl (base : UInt16) (u : Uart) (clears : data &&& 5 = 5) :
    u.write base (base + 2) data =
      { u with regs := { u.regs with fcr := data }, fifo := [] } := by
  have notData : base + 2 ≠ base := by grind
  have notUpper : base + 2 ≠ base + 1 := by grind
  rw [write, if_neg notData, if_neg notUpper, if_pos rfl]
  simp only [clears, or_true, if_true]

/-- What the transmitter does on its own. -/
inductive Moves : Uart → Uart → Prop
  /-- The first byte of the FIFO gets to the shift register. -/
  | load {u : Uart} {data : UInt8} {rest : List UInt8} (idle : u.shift = none)
    (first : u.fifo = data :: rest) : Moves u { u with shift := some data, fifo := rest }
  /-- The byte in the shift register has been sent. -/
  | send {u : Uart} {data : UInt8} (busy : u.shift = some data) :
    Moves u { u with
      shift := none
      sent := if u.regs.loopback then u.sent else u.sent ++ [u.regs.frame data] }

/-- Work of the transmitter: two steps for a byte that waits, one for a byte that is being sent. -/
def work (u : Uart) : Nat := 2 * u.fifo.length + u.shift.toList.length

/-- What was sent and what is to be sent with the registers as they are. -/
def carried (u : Uart) : List LineFrame := u.sent ++ u.pending.map u.regs.frame

/-- Every move is work. -/
theorem Moves.work_lt (moves : Moves u v) : v.work < u.work := by
  cases moves with
  | load idle first =>
    simp only [work, idle, first, Option.toList_none, Option.toList_some, List.length_cons,
      List.length_nil]
    omega
  | send busy => simp [work, busy]

/-- While bytes are pending the transmitter moves. -/
theorem exists_moves (busy : u.pending ≠ []) : ∃ v, Moves u v := by
  cases shift : u.shift with
  | some data => exact ⟨_, .send shift⟩
  | none =>
    cases fifo : u.fifo with
    | cons data rest => exact ⟨_, .load shift fifo⟩
    | nil => exact absurd (by rw [pending, shift, fifo]; rfl) busy

/-- Moves leave the registers and what was lost. -/
theorem Moves.regs_eq (moves : Moves u v) : v.regs = u.regs ∧ v.lost = u.lost := by
  cases moves with
  | load => exact ⟨rfl, rfl⟩
  | send => exact ⟨rfl, rfl⟩

/-- Moves put nothing into the FIFO. -/
theorem Moves.fifo_nil (moves : Moves u v) (empty : u.fifo = []) : v.fifo = [] := by
  cases moves with
  | load idle first =>
    rw [empty] at first
    cases first
  | send busy => exact empty

/-- Moves take nothing from the line and send what was pending, in its order. -/
theorem Moves.carried_eq (moves : Moves u v) (line : u.regs.loopback = false) :
    v.carried = u.carried := by
  cases moves with
  | load idle first => simp [carried, pending, idle, first]
  | send busy => simp [carried, pending, busy, line]

/-- What a move sends was pending. -/
theorem Moves.drains (moves : Moves u v) :
    ∃ new, v.sent = u.sent ++ new ∧ new.length + v.pending.length ≤ u.pending.length := by
  cases moves with
  | load idle first => exact ⟨[], by simp, by simp [pending, idle, first]⟩
  | @send data busy =>
    by_cases line : u.regs.loopback = true
    · exact ⟨[], by simp [line], by simp [pending, busy]⟩
    · refine ⟨[u.regs.frame data], by simp [line], ?_⟩
      simp only [pending, busy, Option.toList_none, Option.toList_some, List.length_append,
        List.length_cons, List.length_nil]
      omega

/-- An empty FIFO has room for a byte. -/
theorem push_empty (empty : u.fifo = []) (data : UInt8) : u.push data = { u with fifo := [data] } := by
  have room : u.fifo.length < u.regs.places := by
    rw [empty, UartRegs.places]
    split <;> decide
  rw [push, if_pos room, empty, List.nil_append]

/-- A byte for the transmitter is at most one more byte that waits. -/
theorem work_push_le (u : Uart) (data : UInt8) : (u.push data).work ≤ u.work + 2 := by
  unfold push
  split
  · simp only [work, List.length_append, List.length_singleton]
    omega
  · exact Nat.le_add_right _ _

/-- A byte for an empty FIFO is carried behind the others. -/
theorem carried_push (empty : u.fifo = []) (data : UInt8) :
    (u.push data).carried = u.carried ++ [u.regs.frame data] := by
  rw [push_empty empty]
  simp [carried, pending, empty]

/-- A write adds at most one byte that waits. -/
theorem work_write_le (base port : UInt16) (data : UInt8) (u : Uart) :
    (u.write base port data).work ≤ u.work + 2 := by
  have emptied (p : Prop) [Decidable p] : (if p then [] else u.fifo).length ≤ u.fifo.length := by
    split <;> simp
  unfold write
  split_ifs
  all_goals first
    | exact u.work_push_le data
    | exact Nat.le_add_right _ _
    | exact Nat.le_add_right_of_le
        (Nat.add_le_add_right (Nat.mul_le_mul_left 2 (emptied _)) u.shift.toList.length)

/-- Where the FIFO is empty the line status may be read, and says so. -/
theorem exists_reads (base : UInt16) (empty : u.fifo = []) :
    ∃ v, u.Reads base (base + 5) v ∧ v &&& 0x20 ≠ 0 := by
  by_cases idle : u.pending = []
  · exact ⟨0x60, fun _ => ⟨iff_of_true (by decide) empty, iff_of_true (by decide) idle⟩, by decide⟩
  · exact ⟨0x20, fun _ => ⟨iff_of_true (by decide) empty, iff_of_false (by decide) idle⟩, by decide⟩

end Uart

end Symphony
