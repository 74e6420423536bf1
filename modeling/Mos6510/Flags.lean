/-!
The status flags. The processor keeps six flags. A status byte has two more positions: the reserved
bit, which is always written as one, and the break bit, which exists only in bytes pushed on the
stack and tells a software interrupt from a hardware one. Main statement: reading a written status
byte gives the flags back, whatever was written into the two other positions.
-/

namespace Mos6510

/-- The names of the six flags. -/
inductive Flag where
  | negative
  | overflow
  | decimal
  | interruptDisable
  | zero
  | carry
  deriving DecidableEq, Repr

/-- The values of the six flags. -/
structure Flags where
  negative : Bool
  overflow : Bool
  decimal : Bool
  interruptDisable : Bool
  zero : Bool
  carry : Bool
  deriving DecidableEq, Repr

/-- The position of a flag in a status byte. -/
def Flag.mask : Flag → UInt8
  | .negative => 0x80
  | .overflow => 0x40
  | .decimal => 0x08
  | .interruptDisable => 0x04
  | .zero => 0x02
  | .carry => 0x01

/-- The sign of a byte in two's complement. -/
def isNegative (value : UInt8) : Bool := decide (0x80 ≤ value)

namespace Flags

/-- The position that no flag uses. It is written as one. -/
def reservedMask : UInt8 := 0x20

/-- The position of the break bit. -/
def breakMask : UInt8 := 0x10

def get (flags : Flags) : Flag → Bool
  | .negative => flags.negative
  | .overflow => flags.overflow
  | .decimal => flags.decimal
  | .interruptDisable => flags.interruptDisable
  | .zero => flags.zero
  | .carry => flags.carry

def set (flags : Flags) (flag : Flag) (value : Bool) : Flags :=
  match flag with
  | .negative => { flags with negative := value }
  | .overflow => { flags with overflow := value }
  | .decimal => { flags with decimal := value }
  | .interruptDisable => { flags with interruptDisable := value }
  | .zero => { flags with zero := value }
  | .carry => { flags with carry := value }

/-- A mask if the condition holds, no bit otherwise. -/
def bit (condition : Bool) (mask : UInt8) : UInt8 := if condition then mask else 0

/-- The status byte: the flags in their positions and the reserved bit. The break bit is clear. -/
def status (flags : Flags) : UInt8 :=
  reservedMask ||| bit flags.negative Flag.negative.mask ||| bit flags.overflow Flag.overflow.mask
    ||| bit flags.decimal Flag.decimal.mask
    ||| bit flags.interruptDisable Flag.interruptDisable.mask
    ||| bit flags.zero Flag.zero.mask ||| bit flags.carry Flag.carry.mask

/-- The byte that goes on the stack: the status byte, with the break bit as asked. -/
def pushed (flags : Flags) (software : Bool) : UInt8 := flags.status ||| bit software breakMask

/-- The flags that a byte holds. The reserved and the break bit are ignored. -/
def ofByte (byte : UInt8) : Flags where
  negative := byte &&& Flag.negative.mask != 0
  overflow := byte &&& Flag.overflow.mask != 0
  decimal := byte &&& Flag.decimal.mask != 0
  interruptDisable := byte &&& Flag.interruptDisable.mask != 0
  zero := byte &&& Flag.zero.mask != 0
  carry := byte &&& Flag.carry.mask != 0

/-- The status byte after power-on and after a reset: only the interrupt-disable flag is set. -/
def powerOnStatus : UInt8 := 0x24

def powerOn : Flags := ofByte powerOnStatus

/-- Records the sign of a byte and whether it is zero; the other flags stay. -/
def observe (flags : Flags) (value : UInt8) : Flags :=
  { flags with negative := isNegative value, zero := decide (value = 0) }

/-- The status byte holds every flag, so all of them can be read back from it. -/
@[simp] theorem ofByte_status (flags : Flags) : ofByte flags.status = flags := by
  obtain ⟨n, v, d, i, z, c⟩ := flags
  revert n v d i z c
  decide

/-- Neither the reserved bit nor the break bit is a flag, so flags come back from the stack as they
went, whoever pushed them. -/
@[simp] theorem ofByte_pushed (flags : Flags) (software : Bool) :
    ofByte (flags.pushed software) = flags := by
  obtain ⟨n, v, d, i, z, c⟩ := flags
  revert n v d i z c software
  decide

@[simp] theorem get_set_self (flags : Flags) (flag : Flag) (value : Bool) :
    (flags.set flag value).get flag = value := by
  cases flag <;> rfl

/-- The flags are independent of each other. -/
theorem get_set_of_ne (flags : Flags) {flag other : Flag} (value : Bool) (h : other ≠ flag) :
    (flags.set flag value).get other = flags.get other := by
  cases flag <;> cases other <;> simp_all [get, set]

end Flags

end Mos6510
