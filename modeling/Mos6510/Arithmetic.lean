import Mos6510.Flags

/-!
Arithmetic on single bytes with the flags that it leaves behind. Sums and differences take the carry
in and put it out, so that numbers of many bytes are added byte by byte. With the decimal flag set
a byte counts as two decimal digits; each digit is then summed on its own and corrected by six, and
the flags keep the odd values that the correction circuit gives them.
-/

namespace Mos6510

/-- A result byte with the flags that go with it. -/
structure Outcome where
  value : UInt8
  flags : Flags
  deriving DecidableEq, Repr

namespace Arithmetic

/-- The lower of the two digits of a byte. -/
def lowDigit (value : UInt8) : Nat := value.toNat % 16

/-- The higher of the two digits of a byte. -/
def highDigit (value : UInt8) : Nat := value.toNat / 16

def ofDigits (high low : Nat) : UInt8 := UInt8.ofNat (high * 16 + low)

/-- A sum leaves the range of a signed byte when the operands have one sign and the sum another. -/
def sumOverflows (a operand result : UInt8) : Bool :=
  isNegative a == isNegative operand && isNegative a != isNegative result

/-- A difference leaves the range of a signed byte when the operands differ in sign and the sign of
the first is lost. -/
def differenceOverflows (a operand result : UInt8) : Bool :=
  isNegative a != isNegative operand && isNegative a != isNegative result

/-- The sum of two bytes and the carry. -/
def addBinary (a operand : UInt8) (flags : Flags) : Outcome :=
  let sum := a.toNat + operand.toNat + flags.carry.toNat
  let result := UInt8.ofNat sum
  { value := result
    flags := { flags.observe result with
      carry := decide (255 < sum)
      overflow := sumOverflows a operand result } }

/-- The sum of two digits and a carry, and the carry to the next digit. A sum above nine is
corrected by six. -/
def addDigits (a operand : Nat) (carry : Bool) : Nat × Bool :=
  let sum := a + operand + carry.toNat
  if 9 < sum then ((sum + 6) % 16, true) else (sum, false)

/-- The sum of two bytes of two decimal digits each, and the carry. The zero flag is that of the
binary sum; sign and overflow are taken when only the lower digit has been corrected. -/
def addDecimal (a operand : UInt8) (flags : Flags) : Outcome :=
  let low := addDigits (lowDigit a) (lowDigit operand) flags.carry
  let high := addDigits (highDigit a) (highDigit operand) low.2
  let halfway := ofDigits (highDigit a + highDigit operand + low.2.toNat) 0
  { value := ofDigits high.1 low.1
    flags := { flags with
      negative := isNegative halfway
      overflow := sumOverflows a operand halfway
      zero := (addBinary a operand flags).flags.zero
      carry := high.2 } }

/-- The sum of two bytes and the carry, in the number system that the decimal flag selects. -/
def add (a operand : UInt8) (flags : Flags) : Outcome :=
  if flags.decimal then addDecimal a operand flags else addBinary a operand flags

/-- The difference of two bytes, less one if the carry is clear. The carry is set if nothing had to
be borrowed. -/
def subtractBinary (a operand : UInt8) (flags : Flags) : Outcome :=
  let due := operand.toNat + (!flags.carry).toNat
  let result := UInt8.ofNat (a.toNat + 256 - due)
  { value := result
    flags := { flags.observe result with
      carry := decide (due ≤ a.toNat)
      overflow := differenceOverflows a operand result } }

/-- The difference of two digits and a borrow, and the borrow from the next digit. A difference
below zero is corrected by six. -/
def subtractDigits (a operand : Nat) (borrow : Bool) : Nat × Bool :=
  let due := operand + borrow.toNat
  if a < due then ((a + 32 - due - 6) % 16, true) else (a - due, false)

/-- The difference of two bytes of two decimal digits each. All flags are those of the binary
difference. -/
def subtractDecimal (a operand : UInt8) (flags : Flags) : Outcome :=
  let low := subtractDigits (lowDigit a) (lowDigit operand) (!flags.carry)
  let high := subtractDigits (highDigit a) (highDigit operand) low.2
  { value := ofDigits high.1 low.1
    flags := (subtractBinary a operand flags).flags }

/-- The difference of two bytes and the borrow, in the number system that the decimal flag
selects. -/
def subtract (a operand : UInt8) (flags : Flags) : Outcome :=
  if flags.decimal then subtractDecimal a operand flags else subtractBinary a operand flags

/-- Compares a register with an operand: the carry tells whether the register is at least as large,
sign and zero are those of the difference. -/
def compare (register operand : UInt8) (flags : Flags) : Flags :=
  { flags.observe (register - operand) with carry := decide (operand ≤ register) }

/-- Shifts all bits one place up. The highest goes to the carry and `enters` becomes the lowest. -/
def shiftLeft (enters : Bool) (value : UInt8) (flags : Flags) : Outcome :=
  let result := UInt8.ofNat (value.toNat * 2 + enters.toNat)
  { value := result
    flags := { flags.observe result with carry := isNegative value } }

/-- Shifts all bits one place down. The lowest goes to the carry and `enters` becomes the
highest. -/
def shiftRight (enters : Bool) (value : UInt8) (flags : Flags) : Outcome :=
  let result := UInt8.ofNat (value.toNat / 2 + enters.toNat * 128)
  { value := result
    flags := { flags.observe result with carry := decide (value.toNat % 2 = 1) } }

def rotateLeft (value : UInt8) (flags : Flags) : Outcome := shiftLeft flags.carry value flags

def rotateRight (value : UInt8) (flags : Flags) : Outcome := shiftRight flags.carry value flags

/-- The next byte up, with its sign and whether it is zero. -/
def increment (value : UInt8) (flags : Flags) : Outcome :=
  { value := value + 1, flags := flags.observe (value + 1) }

/-- The next byte down, with its sign and whether it is zero. -/
def decrement (value : UInt8) (flags : Flags) : Outcome :=
  { value := value - 1, flags := flags.observe (value - 1) }

/-- The next byte up. The flags stay as they are. -/
def successor (value : UInt8) (flags : Flags) : Outcome := { value := value + 1, flags }

/-- The next byte down. The flags stay as they are. -/
def predecessor (value : UInt8) (flags : Flags) : Outcome := { value := value - 1, flags }

/-- A digit as it comes out of a rotation, corrected by six if the digit that went in rounds up to
more than five. -/
def correctRotated (before after : Nat) : Nat × Bool :=
  if 5 < before + before % 2 then ((after + 6) % 16, true) else (after, false)

/-- Rotates down through the carry within the adder. Overflow is bit six against bit five of the
result, and the carry is bit six; with the decimal flag set both digits are corrected by what they
were before the rotation, and the carry tells whether the higher one was. -/
def rotateInAdder (value : UInt8) (flags : Flags) : Outcome :=
  let result := (rotateRight value flags).value
  let observed := { flags.observe result with
    overflow := (result &&& 0x40 != 0) != (result &&& 0x20 != 0) }
  if flags.decimal then
    let low := correctRotated (lowDigit value) (lowDigit result)
    let high := correctRotated (highDigit value) (highDigit result)
    { value := ofDigits high.1 low.1, flags := { observed with carry := high.2 } }
  else
    { value := result, flags := { observed with carry := result &&& 0x40 != 0 } }

end Arithmetic

end Mos6510
