import Mos6510.Address

/-!
What the processor sees of the world: a memory that it reads and writes one byte at a time, and one
shared interrupt-request line that devices may hold. Reading changes nothing, so an instruction is
a function of the bytes that it reads.
-/

namespace Mos6510

/-- A memory bus. -/
class Bus (β : Type) where
  /-- The byte at an address. -/
  read : β → Address → UInt8
  /-- The bus after a byte has been sent to an address. Whether it is kept is up to the bus. -/
  write : β → Address → UInt8 → β
  /-- Whether a device on the bus holds the interrupt-request line. -/
  requestsInterrupt : β → Bool := fun _ => false

/-- One byte sent to one address. -/
structure Write where
  address : Address
  value : UInt8
  deriving DecidableEq, Repr

namespace Bus

variable {β : Type} [Bus β]

/-- Sends bytes to the bus in the order of the list. -/
def writeAll (bus : β) (writes : List Write) : β :=
  writes.foldl (fun bus w => write bus w.address w.value) bus

@[simp] theorem writeAll_nil (bus : β) : writeAll bus [] = bus := rfl

@[simp] theorem writeAll_cons (bus : β) (w : Write) (rest : List Write) :
    writeAll bus (w :: rest) = writeAll (write bus w.address w.value) rest := rfl

/-- Writes that are sent in two parts reach the bus as if they were sent at once. -/
theorem writeAll_append (bus : β) (first second : List Write) :
    writeAll bus (first ++ second) = writeAll (writeAll bus first) second := by
  simp [writeAll, List.foldl_append]

end Bus

/-- The little-endian word at an address: its low byte there, its high byte at the next address,
which after the last address is the first one. -/
def readWord (read : Address → UInt8) (address : Address) : Address :=
  Address.ofBytes (read address) (read (address + 1))

/-- The bytes at consecutive addresses. After the last address comes the first one. -/
def readRun (read : Address → UInt8) (address : Address) : (length : Nat) → List UInt8
  | 0 => []
  | length + 1 => read address :: readRun read (address + 1) length

@[simp] theorem length_readRun (read : Address → UInt8) (address : Address) (length : Nat) :
    (readRun read address length).length = length := by
  induction length generalizing address with
  | zero => rfl
  | succ length ih => simp [readRun, ih]

end Mos6510
