import Mos6510.Processor
import Mos6510.Ram

/-!
Sweeps: one instruction carried out over a grid of operands. Every point of the grid sets a byte of
memory and the registers and then steps once; the memory and the cycle counter carry on from one
point to the next.
-/

namespace Mos6510

/-- A grid: what is the same at all points, and the values of the byte, the accumulator and the
status that differ. -/
structure Sweep where
  pc : Address
  slot : Address
  x : UInt8
  y : UInt8
  sp : UInt8
  accumulators : List UInt8
  operands : List UInt8
  statuses : List UInt8

namespace Sweep

structure Point where
  status : UInt8
  accumulator : UInt8
  operand : UInt8

/-- The points of a grid. The operand changes fastest and the status slowest. -/
def points (sweep : Sweep) : List Point :=
  sweep.statuses.flatMap fun status =>
    sweep.accumulators.flatMap fun accumulator =>
      sweep.operands.map fun operand => { status, accumulator, operand }

/-- The processor set to a point. -/
def prepare (sweep : Sweep) (processor : Processor Ram) (point : Point) : Processor Ram :=
  { processor with
    bus := processor.bus.write sweep.slot point.operand
    registers := {
      a := point.accumulator
      x := sweep.x
      y := sweep.y
      sp := sweep.sp
      pc := sweep.pc
      flags := Flags.ofByte point.status } }

/-- The text of what a step left behind: the registers, the byte, the program counter and the
cycles. -/
def row (sweep : Sweep) (processor : Processor Ram) (cost : Nat) : List Char :=
  let r := processor.registers
  Hexadecimal.bytes [r.a, r.x, r.y, r.sp, r.flags.status, processor.bus.read sweep.slot] ++
    Hexadecimal.address r.pc ++ (toString cost).toList

def rowsFrom (sweep : Sweep) (processor : Processor Ram) : List Point → List (List Char)
  | [] => []
  | point :: rest =>
    let before := sweep.prepare processor point
    let after := before.step
    sweep.row after before.stepCost :: sweep.rowsFrom after rest

/-- The rows of a grid, on a processor that has just been switched on. -/
def rows (sweep : Sweep) (ram : Ram) : List (List Char) :=
  sweep.rowsFrom (Processor.powerOn ram) sweep.points

end Sweep

end Mos6510
