import Mos6510.Mnemonic
import Mos6510.Registers

/-!
Actions: what an operation does, with the place of its operand left open. Operations fall into
classes that touch the machine in the same way, and an operation of a class is the function that
tells it from the others. The undocumented operations that alter memory use the result at once; those
that count leave it to the use to say what sign and zero are.
-/

namespace Mos6510

/-- The ways to touch the machine. -/
inductive Action where
  /-- Changes registers only. -/
  | inherent (change : Registers → Registers)
  /-- Reads the operand and changes registers. -/
  | read (use : UInt8 → Registers → Registers)
  /-- Changes registers and then stores a byte, which may depend on the address that the operand is
  indexed from. -/
  | store (prepare : Registers → Registers) (value : Registers → Address → UInt8)
  /-- Replaces the operand, which is the accumulator or a byte of memory, by the outcome of an
  operation on it, and then uses the result. -/
  | modify (alter : UInt8 → Flags → Outcome) (use : UInt8 → Registers → Registers)
  | push (value : Registers → UInt8)
  /-- Pulls a byte and changes registers. -/
  | pull (use : UInt8 → Registers → Registers)
  /-- Goes to the operand if a condition holds. -/
  | branch (condition : Flags → Bool)
  | jump
  /-- Goes to the operand and leaves the way back on the stack. -/
  | call
  /-- Goes back to where a call came from. -/
  | returnFromCall
  /-- Goes back to where an interrupt came from. -/
  | returnFromInterrupt
  /-- Interrupts the program. -/
  | interrupt
  /-- Goes nowhere. -/
  | halt

namespace Action

/-- Stores a byte that depends on the registers alone. -/
def storeByte (value : Registers → UInt8) : Action := .store id fun registers _ => value registers

/-- Stores a byte masked by the page after that of the address that the operand is indexed from. -/
def storeMasked (prepare : Registers → Registers) (value : Registers → UInt8) : Action :=
  .store prepare fun registers base => value registers &&& (base.page + 1)

/-- Replaces the operand and does nothing more. -/
def alterOnly (alter : UInt8 → Flags → Outcome) : Action := .modify alter fun _ registers => registers

/-- Whether the operation itself says where execution goes on, and not the length of the
instruction. -/
def isControlFlow : Action → Bool
  | .branch _ | .jump | .call | .returnFromCall | .returnFromInterrupt | .interrupt | .halt => true
  | _ => false

end Action

namespace Mnemonic

def action : Mnemonic → Action
  | .lda => .read Registers.loadA
  | .ldx => .read Registers.loadX
  | .ldy => .read Registers.loadY
  | .sta => .storeByte fun r => r.a
  | .stx => .storeByte fun r => r.x
  | .sty => .storeByte fun r => r.y
  | .tax => .inherent fun r => r.loadX r.a
  | .tay => .inherent fun r => r.loadY r.a
  | .txa => .inherent fun r => r.loadA r.x
  | .tya => .inherent fun r => r.loadA r.y
  | .tsx => .inherent fun r => r.loadX r.sp
  | .txs => .inherent fun r => { r with sp := r.x }
  | .pha => .push fun r => r.a
  | .php => .push fun r => r.flags.pushed true
  | .pla => .pull Registers.loadA
  | .plp => .pull Registers.loadFlags
  | .adc => .read Registers.add
  | .sbc => .read Registers.subtract
  | .and => .read Registers.mask
  | .ora => .read Registers.setBits
  | .eor => .read Registers.flipBits
  | .cmp => .read fun operand r => r.compare r.a operand
  | .cpx => .read fun operand r => r.compare r.x operand
  | .cpy => .read fun operand r => r.compare r.y operand
  | .bit => .read Registers.testBits
  | .inc => .alterOnly Arithmetic.increment
  | .dec => .alterOnly Arithmetic.decrement
  | .inx => .inherent fun r => r.loadX (r.x + 1)
  | .iny => .inherent fun r => r.loadY (r.y + 1)
  | .dex => .inherent fun r => r.loadX (r.x - 1)
  | .dey => .inherent fun r => r.loadY (r.y - 1)
  | .asl => .alterOnly (Arithmetic.shiftLeft false)
  | .lsr => .alterOnly (Arithmetic.shiftRight false)
  | .rol => .alterOnly Arithmetic.rotateLeft
  | .ror => .alterOnly Arithmetic.rotateRight
  | .jmp => .jump
  | .jsr => .call
  | .rts => .returnFromCall
  | .rti => .returnFromInterrupt
  | .brk => .interrupt
  | .nop => .read fun _ r => r
  | .bcc => .branch fun flags => !flags.carry
  | .bcs => .branch fun flags => flags.carry
  | .beq => .branch fun flags => flags.zero
  | .bne => .branch fun flags => !flags.zero
  | .bmi => .branch fun flags => flags.negative
  | .bpl => .branch fun flags => !flags.negative
  | .bvc => .branch fun flags => !flags.overflow
  | .bvs => .branch fun flags => flags.overflow
  | .clc => .inherent (Registers.setFlag .carry false)
  | .sec => .inherent (Registers.setFlag .carry true)
  | .cli => .inherent (Registers.setFlag .interruptDisable false)
  | .sei => .inherent (Registers.setFlag .interruptDisable true)
  | .cld => .inherent (Registers.setFlag .decimal false)
  | .sed => .inherent (Registers.setFlag .decimal true)
  | .clv => .inherent (Registers.setFlag .overflow false)
  | .anc => .read Registers.maskToCarry
  | .alr => .read Registers.maskAndShift
  | .arr => .read Registers.maskAndRotate
  | .sbx => .read Registers.subtractIntoX
  | .lax => .read Registers.loadAX
  | .sax => .storeByte fun r => r.a &&& r.x
  | .dcp => .modify Arithmetic.predecessor fun result r => r.compare r.a result
  | .isc => .modify Arithmetic.successor Registers.subtract
  | .slo => .modify (Arithmetic.shiftLeft false) Registers.setBits
  | .sre => .modify (Arithmetic.shiftRight false) Registers.flipBits
  | .rla => .modify Arithmetic.rotateLeft Registers.mask
  | .rra => .modify Arithmetic.rotateRight Registers.add
  | .las => .read Registers.maskStackPointer
  | .tas => .storeMasked (fun r => { r with sp := r.a &&& r.x }) fun r => r.sp
  | .xaa => .read fun operand r => r.loadA (r.a &&& r.x &&& operand)
  | .lxa => .read fun operand r => r.loadAX (r.a &&& operand)
  | .sha => .storeMasked id fun r => r.a &&& r.x
  | .shx => .storeMasked id fun r => r.x
  | .shy => .storeMasked id fun r => r.y
  | .jam => .halt

def isControlFlow (mnemonic : Mnemonic) : Bool := mnemonic.action.isControlFlow

end Mnemonic

end Mos6510
