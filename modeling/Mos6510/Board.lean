import Mos6510.Ram

/-!
A board: memory behind a bus that protects some address ranges from writes and has one register
through which the running program can hold the interrupt-request line.
-/

namespace Mos6510

/-- Memory with write protection and an interrupt-request register. -/
structure Board where
  ram : Ram
  /-- The ranges, both ends included, in which writes from the bus are ignored. -/
  protectedRanges : List (Address × Address)
  /-- Where a write holds the request line, if the byte is not zero, or releases it. -/
  requestRegister : Option Address
  /-- Whether the board holds the request line. -/
  requesting : Bool

namespace Board

/-- Whether writes from the bus to an address are ignored. -/
def isProtected (board : Board) (address : Address) : Bool :=
  board.protectedRanges.any fun range => decide (range.1 ≤ address) && decide (address ≤ range.2)

/-- The board after a write from the bus. The request register keeps the byte like any other
address, unless it is protected. -/
def write (board : Board) (address : Address) (value : UInt8) : Board :=
  { board with
    requesting := if board.requestRegister = some address then value != 0 else board.requesting
    ram := if board.isProtected address then board.ram else board.ram.write address value }

instance : Bus Board where
  read board address := board.ram.read address
  write := write
  requestsInterrupt board := board.requesting

end Board

end Mos6510
