import Mos6510.Hexadecimal
import Mos6510.Interrupt

/-!
Events: what a machine lets the world see, in the order in which it happens. Some events are
reported as a message with a severity; the others are there to be counted.
-/

namespace Mos6510

/-- How much a message matters. -/
inductive Severity where
  | trace
  | debug
  | warning
  deriving DecidableEq, Repr

/-- Something that happened. Notes of type `ν` come from the host. -/
inductive Event (ν : Type) where
  /-- The processor was reset and starts at an address. -/
  | reset (start : Address)
  /-- The host drove the non-maskable interrupt line. -/
  | nmiDriven (level : Bool)
  /-- An interrupt was serviced: where execution was, and where it goes on. -/
  | serviced (kind : Interrupt) (returnAddress handler : Address)
  /-- The handler of a trap starts. -/
  | trapEntered (address : Address)
  /-- The handler of a trap has ended. -/
  | trapLeft (address : Address)
  /-- The instruction at an address is about to be carried out, and this is its trace line. -/
  | traced (line : List Char)
  /-- A trace line was handed to the sink. -/
  | sank (line : List Char)
  /-- A byte was sent to the bus. -/
  | wrote (address : Address) (value : UInt8)
  /-- The instruction stream stopped. -/
  | jammed (opcode : UInt8) (address : Address)
  /-- An instruction was carried out. -/
  | executed (address : Address) (opcode : UInt8) (cost : Nat)
  /-- A full trap table of the given capacity refused an address. -/
  | trapRefused (capacity : Nat) (address : Address)
  /-- The host took a note. -/
  | noted (note : ν)
  deriving DecidableEq, Repr

namespace Event

variable {ν : Type}

/-- An address behind a dollar sign. -/
def place (address : Address) : String := "$" ++ String.ofList (Hexadecimal.address address)

/-- The message that an event is reported as. Most events are not reported. -/
def message? : Event ν → Option (Severity × String)
  | .reset start => some (.debug, "reset: PC=" ++ place start)
  | .serviced kind returnAddress handler =>
    some (.debug, kind.name ++ " serviced: return " ++ place returnAddress ++ ", handler " ++
      place handler)
  | .traced line => some (.trace, String.ofList line)
  | .jammed opcode address =>
    some (.warning, "JAM $" ++ String.ofList (Hexadecimal.byte opcode) ++ " at " ++ place address ++
      ": CPU halted")
  | .trapRefused capacity address =>
    some (.warning, "trap table full (" ++ toString capacity ++ " entries), rejecting " ++
      place address)
  | _ => none

/-- The cycles that an event stands for: those of an instruction or of the entry into an interrupt
handler. -/
def cycles : Event ν → Nat
  | .serviced _ _ _ => Interrupt.cycles
  | .executed _ _ cost => cost
  | _ => 0

end Event

end Mos6510
