import Symphony.Kernel.Print
import Symphony.Library.Uart

/-!
# Serial log

The functions of `serial.c` and what `debug_putchar` does with a character: it goes to the debug
port of the emulator and to the serial port. The functions are the instructions that they run on
the ports.
-/

namespace Symphony

/-! ## Ports -/

/-- `COM_PORT`. -/
def comPort : UInt16 := 0x3f8
/-- `COM_DATA`. -/
def comData : UInt16 := comPort
/-- `COM_INT`. -/
def comInt : UInt16 := comPort + 1
/-- `COM_DIVISOR_LSB`. -/
def comDivisorLsb : UInt16 := comPort
/-- `COM_DIVISOR_MSB`. -/
def comDivisorMsb : UInt16 := comPort + 1
/-- `COM_FIFO_CTRL`. -/
def comFifoCtrl : UInt16 := comPort + 2
/-- `COM_LINE_CONTROL`. -/
def comLineControl : UInt16 := comPort + 3
/-- `COM_MODEM_CTRL`. -/
def comModemCtrl : UInt16 := comPort + 4
/-- `COM_LINE_STATUS`. -/
def comLineStatus : UInt16 := comPort + 5

/-- The debug port of the emulator. -/
def debugPort : UInt16 := 0xe9

/-! ## Functions -/

/-- `serial_init`. -/
def serialInit : List PortOp :=
  [.outb comInt 0x00, .outb comLineControl 0x80, .outb comDivisorLsb 0x0c, .outb comDivisorMsb 0x00,
    .outb comLineControl 0x03, .outb comFifoCtrl 0xc7, .outb comModemCtrl 0x0f]

/-- The loop of `serial_char` and the write after it. -/
def serialSend (c : UInt8) : List PortOp := [.await comLineStatus 0x20, .outb comData c]

/-- `serial_char`; its call of itself is for a character that leads to no further one. -/
def serialChar (c : UInt8) : List PortOp :=
  serialSend c ++ if c = chr '\n' then serialSend (chr '\r') else []

/-- What `debug_putchar` does with a character. -/
def putcharOps (c : UInt8) : List PortOp := .outb debugPort c :: serialChar c

/-- What the calls of `debug_putchar` for a text do. -/
def printOps (text : List UInt8) : List PortOp := text.flatMap putcharOps

/-! ## The devices -/

/-- The serial port, and what the debug port got. -/
structure LogPorts where
  /-- Serial port. -/
  uart : Uart
  /-- Bytes that the debug port got. -/
  console : List UInt8

/-- The debug port and the serial port. -/
def logPorts : PortDevice LogPorts where
  write port data d :=
    if port = debugPort then { d with console := d.console ++ [data] }
    else { d with uart := d.uart.write comPort port data }
  Reads port d := d.uart.Reads comPort port
  Moves d d' := d.uart.Moves d'.uart ∧ d'.console = d.console

end Symphony
