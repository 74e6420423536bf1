import Mos6510.Action
import Mos6510.EffectiveAddress
import Mos6510.Interrupt
import Mos6510.Opcode

/-!
Effects: what one instruction, or the entry into an interrupt handler, does to the machine. An
effect is computed from the registers and the bytes of memory before it. Its writes are carried out
afterwards, in order, so an instruction that overwrites itself or its pointer has already read what
it needed. The one thing read later is the vector of an interrupt, which the pushes may have
changed.
-/

namespace Mos6510

/-- What one step does. -/
structure Effect where
  registers : Registers
  /-- The bytes sent to the bus, in order. -/
  writes : List Write := []
  /-- The cycles beyond those that the opcode always takes. -/
  penalty : Nat := 0
  /-- Where to read the program counter once the writes are done. -/
  vector : Option Address := none
  /-- Whether the instruction stream stops. -/
  halts : Bool := false
  deriving DecidableEq, Repr

namespace Effect

/-- The entry into an interrupt handler: the way back and the flags go on the stack, further
requests are disabled, and execution goes on where the vector says. -/
def interruption (registers : Registers) (returnAddress : Address) (software : Bool)
    (vector : Address) : Effect where
  registers := { registers with
    sp := registers.sp - 3
    flags := { registers.flags with interruptDisable := true } }
  writes := [
    ⟨Address.stack registers.sp, returnAddress.page⟩,
    ⟨Address.stack (registers.sp - 1), returnAddress.low⟩,
    ⟨Address.stack (registers.sp - 2), registers.flags.pushed software⟩]
  vector := some vector

end Effect

/-- The effect of the instruction at the program counter, given the meaning of its opcode and the
bytes of memory. -/
def Opcode.effect (opcode : Opcode) (read : Address → UInt8) (r : Registers) : Effect :=
  let target := opcode.mode.resolve read r.pc r.x r.y
  let next := r.pc + UInt16.ofNat opcode.size
  let pulled (depth : UInt8) := read (Address.stack (r.sp + depth))
  match opcode.mnemonic.action with
  | .inherent change => { registers := { change r with pc := next } }
  | .read use =>
    { registers := { use (read target.address) r with pc := next }, penalty := target.crossing }
  | .store prepare value =>
    { registers := { prepare r with pc := next }
      writes := [⟨target.address, value (prepare r) target.base⟩] }
  | .modify alter use =>
    if opcode.mode = .accumulator then
      let outcome := alter r.a r.flags
      { registers := { use outcome.value (r.acceptA outcome) with pc := next } }
    else
      let outcome := alter (read target.address) r.flags
      { registers := { use outcome.value { r with flags := outcome.flags } with pc := next }
        writes := [⟨target.address, outcome.value⟩] }
  | .push value =>
    { registers := { r with sp := r.sp - 1, pc := next }
      writes := [⟨Address.stack r.sp, value r⟩] }
  | .pull use => { registers := { use (pulled 1) { r with sp := r.sp + 1 } with pc := next } }
  | .branch condition =>
    if condition r.flags then
      { registers := { r with pc := target.address }, penalty := 1 + target.crossing }
    else { registers := { r with pc := next } }
  | .jump => { registers := { r with pc := target.address } }
  | .call =>
    let last := r.pc + 2
    { registers := { r with sp := r.sp - 2, pc := target.address }
      writes := [⟨Address.stack r.sp, last.page⟩, ⟨Address.stack (r.sp - 1), last.low⟩] }
  | .returnFromCall =>
    { registers := { r with sp := r.sp + 2, pc := Address.ofBytes (pulled 1) (pulled 2) + 1 } }
  | .returnFromInterrupt =>
    { registers := { r.loadFlags (pulled 1) with
        sp := r.sp + 3, pc := Address.ofBytes (pulled 2) (pulled 3) } }
  | .interrupt => Effect.interruption r (r.pc + 2) true Interrupt.irq.vector
  | .halt => { registers := r, halts := true }

namespace Opcode

variable (opcode : Opcode) (read : Address → UInt8) (r : Registers)

/-- An operation that reads uses the byte at its address, and waits if that lies in another page
than its base. -/
theorem effect_of_read (use : UInt8 → Registers → Registers)
    (h : opcode.mnemonic.action = .read use) :
    opcode.effect read r =
      { registers := { use (read (opcode.mode.resolve read r.pc r.x r.y).address) r with
          pc := r.pc + UInt16.ofNat opcode.size }
        penalty := (opcode.mode.resolve read r.pc r.x r.y).crossing } := by
  simp only [effect, h]

/-- An operation that alters memory sends the altered byte to the bus and then uses it. It never
waits for a page. -/
theorem effect_of_modify {alter : UInt8 → Flags → Outcome} {use : UInt8 → Registers → Registers}
    (h : opcode.mnemonic.action = .modify alter use) (hMode : opcode.mode ≠ .accumulator) :
    let target := (opcode.mode.resolve read r.pc r.x r.y).address
    let outcome := alter (read target) r.flags
    opcode.effect read r =
      { registers := { use outcome.value { r with flags := outcome.flags } with
          pc := r.pc + UInt16.ofNat opcode.size }
        writes := [⟨target, outcome.value⟩] } := by
  simp only [effect, h, if_neg hMode]

end Opcode

end Mos6510
