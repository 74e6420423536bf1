import Mos6510.Effect

/-!
The processor: its registers, the interrupt inputs and a bus. A step either enters the handler of
an interrupt or carries out one instruction, and costs a number of cycles. Every state has a step;
a halted processor keeps stepping on the spot.
-/

namespace Mos6510

/-- A processor on a bus. -/
structure Processor (β : Type) where
  registers : Registers
  lines : Lines
  /-- Whether the instruction stream has stopped. -/
  jammed : Bool
  /-- The cycles since the last reset, modulo 2 to the power 64. -/
  cycles : UInt64
  bus : β

namespace Processor

variable {β : Type} [Bus β]

def read (processor : Processor β) (address : Address) : UInt8 := Bus.read processor.bus address

def opcodeByte (processor : Processor β) : UInt8 := processor.read processor.registers.pc

/-- The meaning of the opcode at the program counter. -/
def opcode (processor : Processor β) : Opcode := Opcode.ofByte processor.opcodeByte

/-- Whether anything holds the interrupt-request line. -/
def irqAsserted (processor : Processor β) : Bool :=
  processor.lines.irqLevel || Bus.requestsInterrupt processor.bus

/-- The interrupt that the next step services, if any. A pending non-maskable interrupt goes first;
a request counts only while requests are not disabled. -/
def pendingInterrupt (processor : Processor β) : Option Interrupt :=
  if processor.lines.nmiPending then some .nmi
  else if processor.irqAsserted && !processor.registers.flags.interruptDisable then some .irq
  else none

/-- The registers, lines and memory after a reset. The memory and the levels of the lines stay. -/
def reset (processor : Processor β) : Processor β :=
  { processor with
    registers := Registers.powerOn (readWord processor.read resetVector)
    lines := processor.lines.clearNmi
    jammed := false
    cycles := 0 }

/-- The processor when it is first switched on: reset, with all lines released. -/
def powerOn (bus : β) : Processor β :=
  reset { registers := Registers.powerOn 0, lines := Lines.released, jammed := false, cycles := 0, bus }

/-- Carries out an effect and counts its cycles. -/
def apply (processor : Processor β) (effect : Effect) (cost : Nat) : Processor β :=
  let bus := Bus.writeAll processor.bus effect.writes
  let registers :=
    match effect.vector with
    | none => effect.registers
    | some vector => { effect.registers with pc := readWord (Bus.read bus) vector }
  { processor with
    registers
    jammed := processor.jammed || effect.halts
    cycles := processor.cycles + UInt64.ofNat cost
    bus }

/-- What entering the handler of an interrupt does. -/
def entry (processor : Processor β) (kind : Interrupt) : Effect :=
  Effect.interruption processor.registers processor.registers.pc false kind.vector

/-- Enters the handler of an interrupt. A halted processor starts again. -/
def service (processor : Processor β) (kind : Interrupt) : Processor β :=
  let entered := processor.apply (processor.entry kind) Interrupt.cycles
  { entered with
    jammed := false
    lines := match kind with
      | .nmi => processor.lines.clearNmi
      | .irq => processor.lines }

def effect (processor : Processor β) : Effect :=
  processor.opcode.effect processor.read processor.registers

/-- The cycles that the instruction at the program counter takes. -/
def cost (processor : Processor β) : Nat := processor.opcode.cycles + processor.effect.penalty

def execute (processor : Processor β) : Processor β :=
  processor.apply processor.effect processor.cost

/-- One step of a processor without traps. -/
def step (processor : Processor β) : Processor β :=
  match processor.pendingInterrupt with
  | some kind => processor.service kind
  | none => processor.execute

/-- The cycles that the next step of a processor without traps takes. -/
def stepCost (processor : Processor β) : Nat :=
  match processor.pendingInterrupt with
  | some _ => Interrupt.cycles
  | none => processor.cost

end Processor

end Mos6510
