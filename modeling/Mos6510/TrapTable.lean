import Mos6510.Address

/-!
Trap tables: a bounded map from addresses to handlers, in the order in which the addresses came. A
handler that is running has been taken out of its slot; the slot stays, so the address still counts,
but it has nothing to run until the handler is put back or another one is registered there.
-/

namespace Mos6510

/-- A trap table with handlers of type `η`. An empty slot is one whose handler has been taken. -/
structure TrapTable (η : Type) where
  capacity : Nat
  slots : List (Address × Option η)

namespace TrapTable

variable {η : Type}

/-- The capacity of a table for which none was asked. -/
def defaultCapacity : Nat := 32

def empty (capacity : Nat) : TrapTable η := ⟨capacity, []⟩

/-- The addresses of the table, in the order in which they came. -/
def addresses (table : TrapTable η) : List Address := table.slots.map Prod.fst

def size (table : TrapTable η) : Nat := table.slots.length

def isEmpty (table : TrapTable η) : Bool := table.slots.isEmpty

/-- Whether the table has a slot for an address, empty or not. -/
def contains (table : TrapTable η) (address : Address) : Bool :=
  table.slots.any fun slot => slot.1 == address

/-- What the slot of an address holds: `none` without a slot, `some none` for an empty one. -/
def slot? (table : TrapTable η) (address : Address) : Option (Option η) :=
  (table.slots.find? fun slot => slot.1 == address).map Prod.snd

def handler? (table : TrapTable η) (address : Address) : Option η := (table.slot? address).join

/-- The table with the slot of an address filled or emptied; without such a slot nothing changes. -/
def setSlot (table : TrapTable η) (address : Address) (content : Option η) : TrapTable η :=
  { table with
    slots := table.slots.map fun slot => if slot.1 == address then (address, content) else slot }

/-- The table with a handler registered at an address. A handler that is there already is replaced,
also in a full table; a full table takes no further address. -/
def register? (table : TrapTable η) (address : Address) (handler : η) : Option (TrapTable η) :=
  if table.contains address then some (table.setSlot address (some handler))
  else if table.capacity ≤ table.size then none
  else some { table with slots := table.slots ++ [(address, some handler)] }

def remove (table : TrapTable η) (address : Address) : TrapTable η :=
  { table with slots := table.slots.filter fun slot => slot.1 != address }

/-- Takes the handler that waits at an address out of its slot. -/
def take? (table : TrapTable η) (address : Address) : Option (η × TrapTable η) :=
  (table.handler? address).map fun handler => (handler, table.setSlot address none)

/-- Puts a handler back into its slot. If the slot is gone, or has been filled in the meantime,
nothing changes. -/
def restore (table : TrapTable η) (address : Address) (handler : η) : TrapTable η :=
  match table.slot? address with
  | some none => table.setSlot address (some handler)
  | _ => table

end TrapTable

end Mos6510
