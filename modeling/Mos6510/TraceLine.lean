import Mos6510.Assembly
import Mos6510.Processor

/-!
Trace lines: one line of fixed width for the instruction that a processor is about to carry out,
with the registers as they are before it. The operand is followed by what the instruction will
touch: the address after indexing or indirection, and the byte that lies there.
-/

namespace Mos6510

namespace TraceLine

/-- Text filled up with spaces to a width; longer text stays as it is. -/
def pad (width : Nat) (text : List Char) : List Char :=
  text ++ List.replicate (width - text.length) ' '

/-- The spelling of an operation in a trace, where `ISC` goes by its other name. -/
def letters : Mnemonic → List Char
  | .isc => ['I', 'S', 'B']
  | mnemonic => mnemonic.letters

/-- A note that some address is meant. -/
def reaching (text : List Char) : List Char := ' ' :: '@' :: ' ' :: text

/-- A note of what lies at some address. -/
def holding (text : List Char) : List Char := ' ' :: '=' :: ' ' :: text

/-- Whether the operand of an operation is a place to go to and not a place that holds a byte. -/
def isDestination : Mnemonic → Bool
  | .jmp | .jsr => true
  | _ => false

/-- What an operand touches, in notes behind its notation. -/
def annotation (mnemonic : Mnemonic) (mode : Mode) (target : EffectiveAddress) (value : UInt8) :
    List Char :=
  match mode with
  | .implied | .accumulator | .immediate | .relative => []
  | .zeroPage => holding (Hexadecimal.byte value)
  | .absolute => if isDestination mnemonic then [] else holding (Hexadecimal.byte value)
  | .zeroPageX | .zeroPageY =>
    reaching (Hexadecimal.short target.address) ++ holding (Hexadecimal.byte value)
  | .absoluteX | .absoluteY =>
    reaching (Hexadecimal.address target.address) ++ holding (Hexadecimal.byte value)
  | .indirect => holding (Hexadecimal.address target.address)
  | .indexedIndirect =>
    reaching (Hexadecimal.short target.base) ++ holding (Hexadecimal.address target.address) ++
      holding (Hexadecimal.byte value)
  | .indirectIndexed =>
    holding (Hexadecimal.address target.base) ++ reaching (Hexadecimal.address target.address) ++
      holding (Hexadecimal.byte value)

variable {β : Type} [Bus β]

/-- The operation and its operand, with notes. -/
def instruction (processor : Processor β) : List Char :=
  let opcode := processor.opcode
  let r := processor.registers
  let bytes := readRun processor.read (r.pc + 1) opcode.mode.operandBytes
  let target := opcode.mode.resolve processor.read r.pc r.x r.y
  Assembly.join (letters opcode.mnemonic)
    (Assembly.operand opcode.mode bytes r.pc ++
      annotation opcode.mnemonic opcode.mode target (processor.read target.address))

def register (name : List Char) (value : UInt8) : List Char :=
  name ++ ':' :: Hexadecimal.byte value

/-- The registers, in the order in which a trace shows them. -/
def registers (r : Registers) : List Char :=
  register ['A'] r.a ++ ' ' :: register ['X'] r.x ++ ' ' :: register ['Y'] r.y ++
    ' ' :: register ['P'] r.flags.status ++ ' ' :: register ['S', 'P'] r.sp

end TraceLine

/-- The trace line of the instruction that a processor is about to carry out: its address, its
bytes, a star if its opcode is undocumented, the instruction with notes, and the registers. -/
def Processor.traceLine {β : Type} [Bus β] (processor : Processor β) : List Char :=
  let opcode := processor.opcode
  let bytes := readRun processor.read processor.registers.pc opcode.size
  Hexadecimal.address processor.registers.pc ++ ' ' :: ' ' ::
    TraceLine.pad 8 (Hexadecimal.spaced bytes) ++ ' ' ::
    (if opcode.documented then ' ' else '*') ::
    TraceLine.pad 31 (TraceLine.instruction processor) ++ ' ' ::
    TraceLine.registers processor.registers

end Mos6510
