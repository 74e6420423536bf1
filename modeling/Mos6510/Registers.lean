import Mos6510.Address
import Mos6510.Arithmetic

/-!
The registers and the operations on them alone. An operation that leaves a result in a register
records its sign and whether it is zero.
-/

namespace Mos6510

/-- The registers: accumulator, index registers, stack pointer, program counter and flags. -/
structure Registers where
  a : UInt8
  x : UInt8
  y : UInt8
  sp : UInt8
  pc : Address
  flags : Flags
  deriving DecidableEq, Repr

namespace Registers

/-- The registers after power-on and after a reset, when execution starts at the given address. -/
def powerOn (pc : Address) : Registers :=
  { a := 0, x := 0, y := 0, sp := 0xFF, pc, flags := Flags.powerOn }

def loadA (value : UInt8) (registers : Registers) : Registers :=
  { registers with a := value, flags := registers.flags.observe value }

def loadX (value : UInt8) (registers : Registers) : Registers :=
  { registers with x := value, flags := registers.flags.observe value }

def loadY (value : UInt8) (registers : Registers) : Registers :=
  { registers with y := value, flags := registers.flags.observe value }

/-- Puts the outcome of an operation into the accumulator and the flags. -/
def acceptA (outcome : Outcome) (registers : Registers) : Registers :=
  { registers with a := outcome.value, flags := outcome.flags }

def mask (operand : UInt8) (registers : Registers) : Registers :=
  registers.loadA (registers.a &&& operand)

def setBits (operand : UInt8) (registers : Registers) : Registers :=
  registers.loadA (registers.a ||| operand)

def flipBits (operand : UInt8) (registers : Registers) : Registers :=
  registers.loadA (registers.a ^^^ operand)

def add (operand : UInt8) (registers : Registers) : Registers :=
  registers.acceptA (Arithmetic.add registers.a operand registers.flags)

def subtract (operand : UInt8) (registers : Registers) : Registers :=
  registers.acceptA (Arithmetic.subtract registers.a operand registers.flags)

/-- Compares a byte, which stands in some register, with an operand. -/
def compare (register operand : UInt8) (registers : Registers) : Registers :=
  { registers with flags := Arithmetic.compare register operand registers.flags }

/-- Tests bits: zero tells whether the accumulator shares no bit with the operand, sign and overflow
are the two highest bits of the operand. -/
def testBits (operand : UInt8) (registers : Registers) : Registers :=
  { registers with
    flags := { registers.flags with
      zero := decide (registers.a &&& operand = 0)
      negative := isNegative operand
      overflow := operand &&& 0x40 != 0 } }

def setFlag (flag : Flag) (value : Bool) (registers : Registers) : Registers :=
  { registers with flags := registers.flags.set flag value }

/-- Replaces all flags by those that a byte holds. -/
def loadFlags (byte : UInt8) (registers : Registers) : Registers :=
  { registers with flags := Flags.ofByte byte }

/-- Masks the accumulator and copies its sign to the carry. -/
def maskToCarry (operand : UInt8) (registers : Registers) : Registers :=
  let masked := registers.mask operand
  masked.setFlag .carry masked.flags.negative

/-- Leaves in the accumulator what it has in common with the operand, shifted right. -/
def maskAndShift (operand : UInt8) (registers : Registers) : Registers :=
  registers.acceptA (Arithmetic.shiftRight false (registers.a &&& operand) registers.flags)

/-- Masks the accumulator and rotates it right within the adder. -/
def maskAndRotate (operand : UInt8) (registers : Registers) : Registers :=
  registers.acceptA (Arithmetic.rotateInAdder (registers.a &&& operand) registers.flags)

/-- Subtracts an operand from the accumulator masked by `x` and leaves the difference in `x`. There
is no borrow in, and the carry tells whether there is none out. -/
def subtractIntoX (operand : UInt8) (registers : Registers) : Registers :=
  let masked := registers.a &&& registers.x
  (registers.setFlag .carry (decide (operand ≤ masked))).loadX (masked - operand)

/-- Loads the accumulator and `x` with one byte. -/
def loadAX (value : UInt8) (registers : Registers) : Registers :=
  { registers with a := value, x := value, flags := registers.flags.observe value }

/-- Masks the stack pointer, and loads the accumulator and `x` with it too. -/
def maskStackPointer (operand : UInt8) (registers : Registers) : Registers :=
  let value := operand &&& registers.sp
  { registers.loadAX value with sp := value }

end Registers

end Mos6510
